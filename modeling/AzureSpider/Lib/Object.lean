import AzureSpider.Lib.Routine

/-!
# Objects and the values they stand for

An object has calls, each a routine on its state, and stands for an abstract value.  A
specification says what a call may reply and what it does to the value.  If every single call
follows the specification (`Refines`), then so do all sequences of calls (`Refines.replies`).
-/

open Routine

namespace Object

variable {ε π σ Call Reply V : Type}

/-- The replies to calls that are made in turn. -/
def replies (exec : Call → Routine ε π σ Reply) : List Call → Routine ε π σ (List Reply)
  | [] => pure []
  | c :: cs => do
      let r ← exec c
      let rs ← replies exec cs
      pure (r :: rs)

/-- The replies are those of the specification, and take the value `v` to `v'`. -/
inductive Follows (spec : Call → V → Reply → V → Prop) : V → List Call → List Reply → V → Prop
  | nil (v : V) : Follows spec v [] [] v
  | cons {v v' v'' : V} {c : Call} {cs : List Call} {r : Reply} {rs : List Reply}
      (first : spec c v r v') (rest : Follows spec v' cs rs v'') :
      Follows spec v (c :: cs) (r :: rs) v''

/-- Every call may be made when its turn has come. -/
def Admitted (exec : Call → Routine ε π σ Reply) (spec : Call → V → Reply → V → Prop)
    (may : Call → V → σ → Prop) : List Call → V → σ → Prop
  | [], _, _ => True
  | c :: cs, v, s =>
    may c v s ∧ ∀ r v' s', exec c s = .ok r s' → spec c v r v' → Admitted exec spec may cs v' s'

/-- A call that may be made replies, without a panic, as the specification says. -/
def Refines (exec : Call → Routine ε π σ Reply) (spec : Call → V → Reply → V → Prop)
    (may : Call → V → σ → Prop) (rep : V → σ → Prop) : Prop :=
  ∀ c v s, rep v s → may c v s →
    wp (exec c) s (fun r s' => ∃ v', spec c v r v' ∧ rep v' s')

variable {exec : Call → Routine ε π σ Reply} {spec : Call → V → Reply → V → Prop}
  {may : Call → V → σ → Prop} {rep : V → σ → Prop}

/-- What holds for every call holds for all sequences of calls. -/
theorem Refines.replies (h : Refines exec spec may rep) {cs : List Call} {v : V} {s : σ}
    (hrep : rep v s) (hmay : Admitted exec spec may cs v s) :
  wp (Object.replies exec cs) s
    (fun rs s' => ∃ v', Follows spec v cs rs v' ∧ rep v' s')
  := by
  induction cs generalizing v s with
  | nil =>
    rw [Object.replies, wp_pure]
    exact ⟨v, Follows.nil v, hrep⟩
  | cons c cs ih =>
    obtain ⟨hfirst, hrest⟩ := hmay
    obtain ⟨r, s', hrun, v', hspec, hrep'⟩ := exists_ok (h c v s hrep hfirst)
    simp only [Object.replies, wp_bind, wp_pure]
    apply wp_of_ok hrun
    apply wp_imp (ih hrep' (hrest r v' s' hrun hspec))
    rintro rs s'' ⟨v'', hfollows, hrep''⟩
    exact ⟨v'', Follows.cons hspec hfollows, hrep''⟩

end Object
