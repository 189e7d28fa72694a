import AzureSpider.Lib.Interleave
import AzureSpider.Thread.Thread

/-!
# The console

`console.c` on top of the serial device of `lser.c`.  A thread prints a character with `putch`:
with interrupts on, it waits for the semaphore `cs_wsem`, which the interrupt that follows the
character posts; with interrupts off, and in an interrupt handler, it waits for the device
itself.  It reads a character with `getch`, which waits for the semaphore `cs_rsem`.

Interrupt handlers and code with interrupts off are not interrupted, and are one step; a thread
with interrupts on may be switched away between any two of its steps.
-/

open Routine

/-! ### The device -/

/-- The device: the character that it is sending, whether the write interrupt is active, and the
character it has received, for which the read interrupt is active. -/
structure LserDev where
  sending : Option ℕ
  wirq : Bool
  received : Option ℕ
  deriving DecidableEq, Repr

/-- The panic of `lser_write`. -/
inductive LserPanic where
  | notClear
  deriving DecidableEq, Repr

/-- Why nothing happens. -/
inductive ConBlocked where
  /-- The thread waits for a semaphore. -/
  | semaphore
  /-- The loop of `lser_spin_until_write` goes on forever. -/
  | spin
  /-- The device is not sending. -/
  | notSending
  deriving DecidableEq, Repr

/-- The device, the variables of the drivers, and the thread that has waited for `cs_wsem` and
not yet written; with the characters handed to `putch` and those written to the device, each
with the thread that it is from or none for an interrupt handler, those handed to `con_input`,
and those that `getch` has returned. -/
structure Console where
  dev : LserDev
  lsWbusy : Bool
  csWsem : ℕ
  csRsem : ℕ
  csGotchar : ℕ
  writer : Option Tid
  handed : List (Option Tid × ℕ)
  written : List (Option Tid × ℕ)
  typed : List ℕ
  returned : List ℕ
  deriving DecidableEq, Repr

namespace Console

/-- Routines on the console. -/
abbrev Run (α : Type) := Routine ConBlocked LserPanic Console α

/-- Write the character register. -/
def writeChar (who : Option Tid) (ch : ℕ) : Run Unit :=
  modify fun s => { s with
    dev := { s.dev with sending := some ch }
    written := s.written ++ [(who, ch)] }

/-- Write `LSER_IRQ_ENABLE` to the register of the write interrupt. -/
def clearWirq : Run Unit :=
  modify fun s => { s with dev := { s.dev with wirq := false } }

/-- The device has sent its character. -/
def sent : Run Unit := do
  let s ← get
  match s.dev.sending with
  | none => fail .notSending
  | some _ =>
    modify fun s => { s with dev := { s.dev with sending := none, wirq := true } }

/-! ### `lser.c` -/

/-- `lser_write`. -/
def lserWrite (who : Option Tid) (ch : ℕ) : Run Unit := do
  let s ← get
  assert (s.lsWbusy = false) .notClear
  modify fun s => { s with lsWbusy := true }
  writeChar who ch

/-- `lser_spin_until_write`, during which the device sends its character. -/
def lserSpinUntilWrite : Run Unit := do
  let s ← get
  if s.dev.wirq then pure ()
  else
    match s.dev.sending with
    | none => fail .spin
    | some _ => sent

/-- The beginning of `lser_writepolled`, for a device that is busy. -/
def waitBusy (irqpending : Bool) : Run Unit :=
  if irqpending then do
    lserSpinUntilWrite
    clearWirq
  else pure ()

/-- The end of `lser_writepolled`. -/
def clearPolled (irqpending : Bool) : Run Unit :=
  if irqpending then pure () else clearWirq

/-- `lser_writepolled`. -/
def lserWritepolled (who : Option Tid) (ch : ℕ) : Run Unit := do
  let s ← get
  let irqpending := s.lsWbusy
  waitBusy irqpending
  writeChar who ch
  lserSpinUntilWrite
  clearPolled irqpending

/-- `con_start`. -/
def conStart : Run Unit := modify fun s => { s with csWsem := s.csWsem + 1 }

/-- `con_input`. -/
def conInput (ch : ℕ) : Run Unit :=
  modify fun s => { s with
    csGotchar := ch
    csRsem := s.csRsem + 1
    typed := s.typed ++ [ch] }

/-- The part of `lser_irq` on the write interrupt. -/
def lserWirq : Run Bool := do
  let s ← get
  if s.dev.wirq then do
    modify fun s => { s with lsWbusy := false }
    clearWirq
    pure true
  else pure false

/-- The part of `lser_irq` on the read interrupt. -/
def lserRirq : Run (Option ℕ) := do
  let s ← get
  modify fun s => { s with dev := { s.dev with received := none } }
  pure s.dev.received

/-- The calls of `con_start` and `con_input` at the end of `lser_irq`. -/
def lserCallbacks (clearToWrite : Bool) (gotARead : Option ℕ) : Run Unit := do
  if clearToWrite then conStart else pure ()
  match gotARead with
  | none => pure ()
  | some ch => conInput ch

/-- `lser_irq`. -/
def lserIrq : Run Unit := do
  let clearToWrite ← lserWirq
  let gotARead ← lserRirq
  lserCallbacks clearToWrite gotARead

/-! ### `console.c` -/

/-- Where a thread is, when it may be switched away. -/
inductive Pc where
  /-- Outside of the functions. -/
  | idle
  /-- In `putch_intr`, before `P`. -/
  | putch (ch : ℕ)
  /-- In `putch_intr`, after `P`. -/
  | send (ch : ℕ)
  /-- In `getch_intr`, before `P`. -/
  | getch
  /-- In `getch_intr`, after `P`. -/
  | read
  deriving DecidableEq, Repr

/-- What a thread may call. -/
inductive Call where
  /-- `putch` with interrupts on. -/
  | putch (ch : ℕ)
  /-- `putch` with interrupts off. -/
  | putchOff (ch : ℕ)
  /-- `getch`. -/
  | getch
  deriving DecidableEq, Repr

/-- A character is handed to `putch`. -/
def hand (who : Option Tid) (ch : ℕ) : Run Unit :=
  modify fun s => { s with handed := s.handed ++ [(who, ch)] }

/-- `putch_polled`. -/
def putchPolled (who : Option Tid) (ch : ℕ) : Run Unit := do
  hand who ch
  lserWritepolled who ch

/-- `P(cs_wsem)`. -/
def pWsem (t : Tid) : Run Unit := do
  let s ← get
  if s.csWsem = 0 then fail .semaphore
  else modify fun s => { s with csWsem := s.csWsem - 1, writer := some t }

/-- `cs_send`. -/
def csSend (t : Tid) (ch : ℕ) : Run Unit := do
  lserWrite (some t) ch
  modify fun s => { s with writer := none }

/-- `P(cs_rsem)`. -/
def pRsem : Run Unit := do
  let s ← get
  if s.csRsem = 0 then fail .semaphore
  else modify fun s => { s with csRsem := s.csRsem - 1 }

/-- `return cs->cs_gotchar`. -/
def returnGotchar : Run Unit :=
  modify fun s => { s with returned := s.returned ++ [s.csGotchar] }

/-- What a thread does, up to the next place where it may be switched away. -/
def step (t : Tid) (call : Call) : Pc → Run Pc
  | .idle =>
    match call with
    | .putch ch => do
        hand (some t) ch
        pure (.putch ch)
    | .putchOff ch => do
        putchPolled (some t) ch
        pure .idle
    | .getch => pure .getch
  | .putch ch => do
      pWsem t
      pure (.send ch)
  | .send ch => do
      csSend t ch
      pure .idle
  | .getch => do
      pRsem
      pure .read
  | .read => do
      returnGotchar
      pure .idle

/-! ### Runs -/

/-- What happens besides the threads. -/
inductive Event where
  /-- The device has sent its character. -/
  | sent
  /-- The device receives a character. -/
  | receive (ch : ℕ)
  /-- An interrupt of the device. -/
  | irq
  /-- An interrupt handler prints a character. -/
  | putch (ch : ℕ)
  deriving DecidableEq, Repr

/-- What an event does. -/
def event : Event → Run Unit
  | .sent => sent
  | .receive ch => modify fun s => { s with dev := { s.dev with received := some ch } }
  | .irq => lserIrq
  | .putch ch => putchPolled none ch

/-- A condition on the events of a run. -/
abbrev Condition := Interleaved Tid Console Pc → Event → Prop

/-- Every event is admitted. -/
def anyEvent : Condition := fun _ _ => True

/-- The steps of the threads, and the events that meet a condition. -/
def moves (allow : Condition) : Moves Tid Console Pc where
  own t s pc s' pc' := ∃ call, step t call pc s = .ok pc' s'
  env c s' := ∃ e, allow c e ∧ event e c.shared = .ok () s'

/-- The state that `config_con` leaves. -/
def init : Interleaved Tid Console Pc :=
  ⟨⟨⟨none, false, none⟩, false, 1, 0, 0, none, [], [], [], []⟩, fun _ => .idle⟩

end Console
