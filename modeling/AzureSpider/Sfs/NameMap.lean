import AzureSpider.Sfs.History

/-!
# The root directory as a finite map

The abstract view of the root directory: a finite map from names to inode numbers, and what
each call on names does to such a map.  The code refines it: on every volume that is reached
from an empty one, a call returns what the map operation returns and leaves the map that it
leaves, or it fails for want of space or memory and leaves the map as it was.
-/

open Machine Routine

namespace Sfs

/-- A map from names to inode numbers. -/
abbrev NameMap : Type := List UInt8 → Option ℕ

/-- The operations on a map. -/
inductive NameOp where
  | creat (name : Name) (excl : Bool)
  | link (name : Name) (ino : ℕ)
  | remove (name : Name)
  | rename (n1 n2 : Name)
  | lookup (name : Name)

namespace NameOp

/-- A name is added to a map, unless it is there or too long. -/
def add (m : NameMap) (name : Name) (ino : ℕ) : Except Errno NameMap :=
  if (m name.bytes).isSome then .error .eexist
  else if 60 ≤ name.length then .error .enametoolong
  else .ok (Function.update m name.bytes (some ino))

/-- What an operation does to a map: the map after it and the inode number that it hands out,
or an error.  `fresh` is the inode number of the file that it makes. -/
def apply (m : NameMap) (fresh : ℕ) : NameOp → Except Errno (NameMap × Option ℕ)
  | creat name excl =>
    match m name.bytes with
    | some ino => if excl then .error .eexist else .ok (m, some ino)
    | none => (add m name fresh).map fun m' => (m', some fresh)
  | link name ino => (add m name ino).map fun m' => (m', none)
  | remove name =>
    match m name.bytes with
    | some _ => .ok (Function.update m name.bytes none, none)
    | none => .error .enoent
  | rename n1 n2 =>
    match m n1.bytes with
    | some ino => (add m n2 ino).map fun m' => (Function.update m' n1.bytes none, none)
    | none => .error .enoent
  | lookup name =>
    match m name.bytes with
    | some ino => .ok (m, some ino)
    | none => .error .enoent

/-- A call is refused memory. -/
def NoMemory (s : Fs) (e : Errno) : Prop := e = .enomem ∧ false ∈ s.kmallocs

/-- There are too few free blocks for an entry and for `n` blocks besides, or all slots that a
directory can have are taken. -/
def NoRoom (n : ℕ) (s : Fs) (e : Errno) : Prop :=
  e = .enospc ∧ s.Cramped n ∨ e = .einval ∧ s.dir.length = 1144 ∧ ∀ k : ℕ, s.dir[k]? ≠ some none

/-- A failure that the map knows nothing of; a file that is made needs a block for its inode. -/
def Exhausted (s : Fs) (e : Errno) : NameOp → Prop
  | creat name _ => NoMemory s e ∨ Slots.lookup s.dir name.bytes = none ∧ NoRoom 1 s e
  | link name _ =>
    Slots.lookup s.dir name.bytes = none ∧ name.length < 60 ∧ NoRoom 0 s e
  | remove name => (Slots.lookup s.dir name.bytes).isSome ∧ NoMemory s e
  | rename n1 n2 => (Slots.lookup s.dir n1.bytes).isSome
      ∧ (NoMemory s e ∨ Slots.lookup s.dir n2.bytes = none ∧ n2.length < 60 ∧ NoRoom 0 s e)
  | lookup name => (Slots.lookup s.dir name.bytes).isSome ∧ NoMemory s e

end NameOp

/-- The inode number of the vnode that a call hands out. -/
def Reply.ino (s : Fs) : Reply → Option ℕ
  | vnode v => some (s.heap v).ino
  | _ => none

/-- The operation on the map that a call is, if it is a call on the root directory. -/
def Op.onNames (s : Fs) : Op → Option NameOp
  | creat dir name excl => if (s.heap dir).ino = 1 then some (.creat name excl) else none
  | link dir name file => if (s.heap dir).ino = 1 then some (.link name (s.heap file).ino) else none
  | remove dir name => if (s.heap dir).ino = 1 then some (.remove name) else none
  | rename d1 n1 _ n2 => if (s.heap d1).ino = 1 then some (.rename n1 n2) else none
  | lookup dir path => if (s.heap dir).ino = 1 then some (.lookup path) else none
  | _ => none

/-- A call does to the directory what the operation does to the map, and leaves the entries that
stay in their slots; a call that fails leaves the directory. -/
def Op.Refines (op : Op) (c : NameOp) (s : Fs) : Prop :=
  wp op.run s
    (fun r s' => (∃ fresh, ¬ s.Live fresh
        ∧ c.apply (Slots.lookup s.dir) fresh = .ok (Slots.lookup s'.dir, r.ino s'))
      ∧ Seated (fun x => Slots.lookup s'.dir x = none) s s')
    (fun e s' => s'.dir = s.dir
      ∧ ((∀ fresh, c.apply (Slots.lookup s.dir) fresh = .error e) ∨ c.Exhausted s e))

section Refines

variable {lost : ℕ → Prop} {s s' : Fs} {p q : Ptr} {name : Name}

theorem Seated.mono {gone gone' : List UInt8 → Prop} (h : Seated gone s s')
    (himp : ∀ x, gone x → gone' x) :
  Seated gone' s s'
  := by
  intro k e he hnot
  exact h k e he (fun hg => hnot (himp _ hg))

/-- A name that is missing and short is added. -/
theorem NameOp.add_ok {m : NameMap} {ino : ℕ} (hnone : m name.bytes = none)
    (hshort : name.length < 60) :
  add m name ino = .ok (Function.update m name.bytes (some ino))
  := by
  rw [add, hnone, if_neg (by simp), if_neg (by omega)]

/-- A failure to make an entry is a failure of the map, or a lack of room. -/
theorem Unlinkable.cases {e : Errno} {n : ℕ} (h : Unlinkable n s name e) :
  (∀ ino, NameOp.add (Slots.lookup s.dir) name ino = .error e)
    ∨ Slots.lookup s.dir name.bytes = none ∧ name.length < 60 ∧ NameOp.NoRoom n s e
  := by
  rcases h with ⟨rfl, hsome⟩ | ⟨hnone, hcause⟩
  · left
    intro ino
    rw [NameOp.add, if_pos hsome]
  · rcases hcause with ⟨rfl, hlong⟩ | ⟨rfl, hshort, hcramped⟩ | ⟨rfl, hshort, hfull⟩
    · left
      intro ino
      rw [NameOp.add, hnone, if_neg (by simp), if_pos hlong]
    · exact .inr ⟨hnone, hshort, .inl ⟨rfl, hcramped⟩⟩
    · exact .inr ⟨hnone, hshort, .inr ⟨rfl, hfull⟩⟩

section Calls

variable (h : Consistent lost s) (hp : p ∈ s.vnodes.guys) (hroot : (s.heap p).ino = 1)

include h in
theorem not_live_zero :
  ¬ s.Live 0
  := h.catalog.zero

include h hp hroot

theorem refines_creat (name : Name) (excl : Bool) :
  (Op.creat p name excl).Refines (.creat name excl) s
  := by
  simp only [Op.Refines, Op.run, wp_bind, wp_pure, vopCreat]
  apply wp_vop_dir h.catalog.toVnodesOk hp (absurd hroot)
  intro _
  apply wp_mono (creat_spec h hp hroot name excl)
  · rintro q s' (hc | ⟨rfl, hf⟩)
    · refine ⟨⟨(s'.heap q).ino, hc.new, ?_⟩, hc.seated.mono (fun _ hf => hf.elim)⟩
      rw [NameOp.apply, hc.missing]
      simp only [NameOp.add_ok hc.missing hc.short, Except.map, hc.map, Reply.ino]
    · refine ⟨⟨0, not_live_zero h, ?_⟩, (Seated.of_dir hf.dir).mono (fun _ hf => hf.elim)⟩
      rw [NameOp.apply, hf.found, hf.dir]
      rfl
  · rintro e s' ⟨⟨lost', hdecl, -⟩, hcause⟩
    refine ⟨hdecl.dir, ?_⟩
    rcases hcause with ⟨rfl, rfl, hsome⟩ | ⟨hnone, hfull | hunlink⟩ | hnomem
    · left
      intro fresh
      obtain ⟨ino, hino⟩ := Option.isSome_iff_exists.mp hsome
      rw [NameOp.apply, hino]
      rfl
    · exact .inr (.inr ⟨hnone, .inl hfull⟩)
    · rcases hunlink.cases with hadd | ⟨-, -, hroom⟩
      · left
        intro fresh
        rw [NameOp.apply, hnone]
        simp only [hadd fresh, Except.map]
      · exact .inr (.inr ⟨hnone, hroom⟩)
    · exact .inr (.inl hnomem)

theorem refines_link (hq : q ∈ s.vnodes.guys) (htype : (s.heap q).i.type = typeFile) (name : Name) :
  (Op.link p name q).Refines (.link name (s.heap q).ino) s
  := by
  simp only [Op.Refines, Op.run, wp_bind, wp_pure, vopLink]
  apply wp_vop_dir h.catalog.toVnodesOk hp (absurd hroot)
  intro _
  apply wp_mono (link_spec h hp hroot hq (h.ino_ne_one hq htype) name)
  · intro _ s' hnamed
    refine ⟨⟨0, not_live_zero h, ?_⟩, hnamed.seated.mono (fun _ hf => hf.elim)⟩
    simp only [NameOp.apply, NameOp.add_ok hnamed.missing hnamed.short, Except.map, hnamed.map,
      Reply.ino]
  · rintro e s' ⟨hdecl, hunlink⟩
    refine ⟨hdecl.dir, ?_⟩
    rcases hunlink.cases with hadd | hroom
    · left
      intro fresh
      simp only [NameOp.apply, hadd, Except.map]
    · exact .inr hroom

theorem refines_remove (name : Name) :
  (Op.remove p name).Refines (.remove name) s
  := by
  simp only [Op.Refines, Op.run, wp_bind, wp_pure, vopRemove]
  apply wp_vop_dir h.catalog.toVnodesOk hp (absurd hroot)
  intro _
  apply wp_mono (remove_spec h hp hroot name)
  · intro _ s' hremoved
    obtain ⟨ino, hino⟩ := Option.isSome_iff_exists.mp hremoved.found
    refine ⟨⟨0, not_live_zero h, ?_⟩, hremoved.seated.mono ?_⟩
    · rw [NameOp.apply, hino, hremoved.map]
      rfl
    · rintro x rfl
      rw [hremoved.map, Function.update_self]
  · rintro e s' ⟨hdecl, ⟨rfl, hnone⟩ | ⟨rfl, hnomem, hsome⟩⟩
    · refine ⟨hdecl.dir, .inl fun fresh => ?_⟩
      rw [NameOp.apply, hnone]
    · exact ⟨hdecl.dir, .inr ⟨hsome, rfl, hnomem⟩⟩

theorem refines_rename (n1 n2 : Name) :
  (Op.rename p n1 p n2).Refines (.rename n1 n2) s
  := by
  simp only [Op.Refines, Op.run, wp_bind, wp_pure, vopRename]
  apply wp_vop_dir h.catalog.toVnodesOk hp (absurd hroot)
  intro _
  apply wp_mono (rename_spec h hp hroot n1 n2)
  · intro _ s' hrenamed
    obtain ⟨ino, hino, hmap⟩ := hrenamed.map
    refine ⟨⟨0, not_live_zero h, ?_⟩, hrenamed.seated.mono ?_⟩
    · rw [NameOp.apply, hino]
      simp only [NameOp.add_ok hrenamed.missing hrenamed.short, Except.map, hmap, Reply.ino]
    · rintro x rfl
      rw [hmap, Function.update_self]
  · rintro e s' ⟨hdecl, (⟨rfl, hnone⟩ | ⟨rfl, hnomem, hsome⟩) | ⟨hsome, hunlink⟩⟩
    · refine ⟨hdecl.dir, .inl fun fresh => ?_⟩
      rw [NameOp.apply, hnone]
    · exact ⟨hdecl.dir, .inr ⟨hsome, .inl ⟨rfl, hnomem⟩⟩⟩
    · refine ⟨hdecl.dir, ?_⟩
      rcases hunlink.cases with hadd | hroom
      · left
        intro fresh
        obtain ⟨ino, hino⟩ := Option.isSome_iff_exists.mp hsome
        rw [NameOp.apply, hino]
        simp only [hadd, Except.map]
      · exact .inr ⟨hsome, .inr hroom⟩

theorem refines_lookup (path : Name) :
  (Op.lookup p path).Refines (.lookup path) s
  := by
  simp only [Op.Refines, Op.run, wp_bind, wp_pure, vopLookup]
  apply wp_vop_dir h.catalog.toVnodesOk hp (absurd hroot)
  intro _
  apply wp_mono (lookup_spec h hp hroot path)
  · intro q s' hf
    refine ⟨⟨0, not_live_zero h, ?_⟩, (Seated.of_dir hf.dir).mono (fun _ hf => hf.elim)⟩
    rw [NameOp.apply, hf.found, hf.dir]
    rfl
  · rintro e s' ⟨hdecl, ⟨rfl, hnone⟩ | ⟨rfl, hnomem, hsome⟩⟩
    · refine ⟨hdecl.dir, .inl fun fresh => ?_⟩
      rw [NameOp.apply, hnone]
    · exact ⟨hdecl.dir, .inr ⟨hsome, rfl, hnomem⟩⟩

end Calls

/-- A call on the names of a consistent volume refines its operation on the map. -/
theorem Op.refines (h : Consistent lost s) (op : Op) (c : NameOp) (hadm : op.Admissible s)
    (hc : op.onNames s = some c) :
  op.Refines c s
  := by
  cases op with
  | creat dir name excl =>
    obtain ⟨hroot, heq⟩ := Option.ite_none_right_eq_some.mp hc
    cases heq
    exact refines_creat h hadm hroot name excl
  | link dir name file =>
    obtain ⟨hroot, heq⟩ := Option.ite_none_right_eq_some.mp hc
    cases heq
    exact refines_link h hadm.1 hroot hadm.2.1 hadm.2.2 name
  | remove dir name =>
    obtain ⟨hroot, heq⟩ := Option.ite_none_right_eq_some.mp hc
    cases heq
    exact refines_remove h hadm hroot name
  | rename d1 n1 d2 n2 =>
    obtain ⟨hroot, heq⟩ := Option.ite_none_right_eq_some.mp hc
    cases heq
    obtain ⟨hd1, hd2, htype⟩ := hadm
    obtain rfl : d1 = d2 :=
      h.catalog.inos d1 hd1 d2 hd2 (hroot.trans (h.ino_eq_one hd2 htype).symm)
    exact refines_rename h hd1 hroot n1 n2
  | lookup dir path =>
    obtain ⟨hroot, heq⟩ := Option.ite_none_right_eq_some.mp hc
    cases heq
    exact refines_lookup h hadm hroot path
  | getroot | read _ _ | write _ _ | truncate _ _ | fsync _ | incref _ | decref _ => cases hc

end Refines

/-- On every volume that is reached from an empty one, the root directory is a finite map, and
the calls on names are operations on it. -/
theorem directory_refines_map {s₀ s : Fs} (hempty : s₀.Empty) (hrun : s₀.Reaches s) :
  Slots.entries s₀.dir = [] ∧ Slots.Distinct s.dir ∧ 64 ∣ (s.file 1).size
    ∧ ∀ (op : Op) (c : NameOp), op.Admissible s → op.onNames s = some c → op.Refines c s
  := by
  have hadv := hrun.advances hempty.consistent hempty.calm
  obtain ⟨lost, hc, -⟩ := hadv.consistent
  exact ⟨hempty.entries, hc.distinct, hc.dvd, fun op c hadm hon => Op.refines hc op c hadm hon⟩

/-- A file with two names. -/
theorem directory_refines_map_relinking :
  Slots.Distinct (started relinking).dir
    ∧ (Op.rename 0 nameA 0 nameB).Refines (.rename nameA nameB) (started relinking)
    ∧ (Op.remove 0 nameB).Refines (.remove nameB) (started relinking)
  := by
  have hreach := reaches_started relinking (by decide +kernel)
  have hadm : (Op.rename 0 nameA 0 nameB).Admissible (started relinking) := by decide +kernel
  have hroot : ((started relinking).heap 0).ino = 1 := by decide +kernel
  generalize started relinking = s at *
  obtain ⟨-, hdistinct, -, hcalls⟩ := directory_refines_map fresh_empty hreach
  exact ⟨hdistinct, hcalls _ _ hadm (if_pos hroot), hcalls _ _ hadm.1 (if_pos hroot)⟩

end Sfs
