import Skunk.Effect.Trace
import Skunk.Posix.Kernel

/-!
# System calls that fail

Any call may be refused, and leave everything as it was; a `read` or a `write` may also come to less than
it was asked for, and a file that is read as a source may end early. `Kernel.attempt` is a call that a
fault may hit, and `Kernel.Does` says what a call may do when nobody knows which faults there are.
-/

namespace Skunk.Posix

open Effect

/-- What happens to a call: it is refused, or it gets through `n` bytes. -/
inductive Fault
  | refused
  | short (n : Nat)
  deriving DecidableEq, Repr

/-- The answer of a call that is refused. -/
def SysCall.refusal : (c : SysCall) → c.Reply
  | .stat _ => none
  | .mkdirP _ => ()
  | .create _ | .openRead _ | .openWrite _ => none
  | .close _ | .flock _ _ _ | .unlock _ | .futimes _ | .seek _ _ | .remove _ => false
  | .read _ _ => none
  | .source _ => none
  | .write _ _ | .fstat _ => none
  | .readdir _ => none
  | .subtract a b => (a + 2 ^ 64 - b % 2 ^ 64) % 2 ^ 64

/-- The same files, with the same contents. -/
structure Unchanged (K K' : Kernel) : Prop where
  files : K'.files = K.files
  folders : K'.folders = K.folders
  data : K'.data = K.data

theorem Unchanged.refl (K : Kernel) : Unchanged K K := ⟨rfl, rfl, rfl⟩

theorem Unchanged.trans {K K' K'' : Kernel} (h : Unchanged K K') (h' : Unchanged K' K'') :
    Unchanged K K'' :=
  ⟨h'.files.trans h.files, h'.folders.trans h.folders, h'.data.trans h.data⟩

namespace Kernel

/-- A call of client `i` that a fault hits. A descriptor is gone even if `close` fails. -/
def falter (i : Nat) : Fault → (c : SysCall) → Kernel → Option (c.Reply × Kernel)
  | _, .subtract a b, K => exec i (.subtract a b) K
  | _, .close fd, K => some (false, K.setOpen fd none)
  | .short n, .read fd count, K => if n < count then exec i (.read fd n) K else some (none, K)
  | .short n, .write fd bytes, K =>
    if n < bytes.length then exec i (.write fd (bytes.take n)) K else some (none, K)
  | .short n, .source path, K => 
    some ((K.sources path).map fun s => { s with readable := min n s.readable }, K)
  | _, c, K => some (c.refusal, K)

/-- A call of client `i`; a fault hits it if it is one that may fail. -/
def attempt (may : SysCall → Bool) (i : Nat) (fault : Option Fault) (c : SysCall) (K : Kernel) :
    Option (c.Reply × Kernel) :=
  match fault with
  | some φ => if may c then falter i φ c K else exec i c K
  | none => exec i c K

/-- What a call of client `i` may do. -/
def Does (may : SysCall → Bool) (i : Nat) (c : SysCall) (K : Kernel) (r : c.Reply) (K' : Kernel) : Prop :=
  ∃ fault, attempt may i fault c K = some (r, K')

/-- What a call of client `i` does where there are no faults. -/
abbrev Works (i : Nat) (c : SysCall) (K : Kernel) (r : c.Reply) (K' : Kernel) : Prop :=
  Does (fun _ => false) i c K r K'

section Does

variable {may : SysCall → Bool} {i : Nat} {K K' : Kernel}

/-- A call is executed, or a fault hits it. -/
theorem does_iff {c : SysCall} {r : c.Reply} : Does may i c K r K' ↔
    exec i c K = some (r, K') ∨ may c ∧ ∃ φ, falter i φ c K = some (r, K') := by
  constructor
  · rintro ⟨_ | φ, h⟩
    · exact .inl h
    · rw [attempt] at h
      split at h
      next hmay => exact .inr ⟨hmay, φ, h⟩
      · exact .inl h
  · rintro (h | ⟨hmay, φ, h⟩)
    · exact ⟨none, h⟩
    · refine ⟨some φ, ?_⟩
      rw [attempt, if_pos hmay]
      exact h

theorem works_iff {c : SysCall} {r : c.Reply} : Works i c K r K' ↔ exec i c K = some (r, K') :=
  does_iff.trans (or_iff_left fun h => Bool.false_ne_true h.1)

/-- The calls that leave the files alone. -/
def looks : SysCall → Bool
  | .mkdirP _ | .create _ | .write _ _ | .remove _ => false
  | _ => true

theorem unchanged_setOpen (fd : Nat) (o : Option OpenFile) : Unchanged K (K.setOpen fd o) :=
  ⟨rfl, rfl, rfl⟩

theorem unchanged_exec {c : SysCall} {r : c.Reply} (hc : looks c = true)
    (h : exec i c K = some (r, K')) : Unchanged K K' := by
  cases c with
  | mkdirP | create | write | remove => cases hc
  | stat | fstat | readdir | source | subtract =>
      obtain ⟨-, rfl⟩ := Prod.mk.inj (Option.some.inj h)
      exact .refl _
  | close fd =>
      obtain ⟨-, rfl⟩ := Prod.mk.inj (Option.some.inj h)
      exact unchanged_setOpen fd none
  | openRead path =>
      rcases exec_openRead h with ⟨-, -, rfl⟩ | ⟨ino, -, -, rfl⟩
      · exact .refl _
      · exact ⟨rfl, rfl, rfl⟩
  | openWrite path =>
      rcases exec_openWrite h with ⟨-, -, rfl⟩ | ⟨ino, -, -, rfl⟩
      · exact .refl _
      · exact ⟨rfl, rfl, rfl⟩
  | flock fd mode nonblock =>
      cases ho : K.opened fd with
      | none =>
          rw [exec, ho] at h
          obtain ⟨-, rfl⟩ := Prod.mk.inj (Option.some.inj h)
          exact .refl _
      | some o =>
          rcases exec_flock ho h with ⟨-, -, rfl⟩ | ⟨-, rfl, -⟩
          · exact unchanged_setOpen fd _
          · exact .refl _
  | unlock fd | futimes fd | seek fd pos | read fd count =>
      rw [exec] at h
      split at h
      · obtain ⟨-, rfl⟩ := Prod.mk.inj (Option.some.inj h)
        exact .refl _
      · obtain ⟨-, rfl⟩ := Prod.mk.inj (Option.some.inj h)
        exact ⟨rfl, rfl, rfl⟩

/-- A call that a fault hits is a shorter one, or it is no call at all; only `close` does its work. -/
theorem falter_cases {φ : Fault} {c : SysCall} {r : c.Reply} (hc : looks c = true)
    (h : falter i φ c K = some (r, K')) :
    K' = K ∨ (∃ fd, c = .close fd ∧ K' = K.setOpen fd none) ∨
      ∃ fd count, (∃ m, c = .read fd m) ∧ ∃ r', exec i (.read fd count) K = some (r', K') := by
  cases c with
  | mkdirP | create | write | remove => cases hc
  | close fd =>
      obtain ⟨-, rfl⟩ := Prod.mk.inj (Option.some.inj h)
      exact .inr (.inl ⟨fd, rfl, rfl⟩)
  | read fd count =>
      cases φ with
      | refused =>
          obtain ⟨-, rfl⟩ := Prod.mk.inj (Option.some.inj h)
          exact .inl rfl
      | short n =>
          rw [falter] at h
          split at h
          · exact .inr (.inr ⟨fd, n, ⟨count, rfl⟩, r, h⟩)
          · obtain ⟨-, rfl⟩ := Prod.mk.inj (Option.some.inj h)
            exact .inl rfl
  | _ =>
      cases φ <;>
      · obtain ⟨-, rfl⟩ := Prod.mk.inj (Option.some.inj h)
        exact .inl rfl

/-- Calls that look leave the files as they are, whatever goes wrong. -/
theorem unchanged_of_does {c : SysCall} {r : c.Reply} (hc : looks c = true) (h : Does may i c K r K') :
    Unchanged K K' := by
  rcases does_iff.mp h with h | ⟨-, φ, h⟩
  · exact unchanged_exec hc h
  · rcases falter_cases hc h with rfl | ⟨fd, -, rfl⟩ | ⟨fd, count, -, r', h'⟩
    · exact .refl K'
    · exact unchanged_setOpen fd none
    · exact unchanged_exec rfl h'

theorem does_create {path : Text} {r : Option Nat} (h : Does may i (.create path) K r K') :
    r = none ∧ K' = K ∨ ∃ loc, K.locate path = some loc ∧ K.entries.lookup loc = none ∧
      r = some K.nextFd ∧ K' = K.addFile i loc := by
  rcases does_iff.mp h with h | ⟨-, φ, h⟩
  · exact exec_create h
  · cases φ <;>
    · obtain ⟨rfl, rfl⟩ := Prod.mk.inj (Option.some.inj h)
      exact .inl ⟨rfl, rfl⟩

theorem does_remove {path : Text} {r : Bool} (h : Does may i (.remove path) K r K') :
    r = false ∧ K' = K ∨ ∃ loc n, K.locate path = some loc ∧ K.files.lookup loc = some n ∧
      r = true ∧ K' = K.dropFile loc := by
  rcases does_iff.mp h with h | ⟨-, φ, h⟩
  · exact exec_remove h
  · cases φ <;>
    · obtain ⟨rfl, rfl⟩ := Prod.mk.inj (Option.some.inj h)
      exact .inl ⟨rfl, rfl⟩

theorem does_openRead {path : Text} {r : Option Nat} (h : Does may i (.openRead path) K r K') :
    r = none ∧ K' = K ∨ ∃ n, K.inode path = some n ∧ r = some K.nextFd ∧ K' = K.addOpen i n := by
  rcases does_iff.mp h with h | ⟨-, φ, h⟩
  · exact (exec_openRead h).imp_left And.right
  · cases φ <;>
    · obtain ⟨rfl, rfl⟩ := Prod.mk.inj (Option.some.inj h)
      exact .inl ⟨rfl, rfl⟩

theorem does_openWrite {path : Text} {r : Option Nat} (h : Does may i (.openWrite path) K r K') :
    r = none ∧ K' = K ∨ ∃ n, K.fileInode path = some n ∧ r = some K.nextFd ∧ K' = K.addOpen i n := by
  rcases does_iff.mp h with h | ⟨-, φ, h⟩
  · exact (exec_openWrite h).imp_left And.right
  · cases φ <;>
    · obtain ⟨rfl, rfl⟩ := Prod.mk.inj (Option.some.inj h)
      exact .inl ⟨rfl, rfl⟩

theorem does_close {fd : Nat} {r : Bool} (h : Does may i (.close fd) K r K') : K' = K.setOpen fd none := by
  rcases does_iff.mp h with h | ⟨-, φ, h⟩
  · exact (Prod.mk.inj (Option.some.inj h)).2.symm
  · exact (Prod.mk.inj (Option.some.inj h)).2.symm

/-- A lock that is not granted changes nothing. -/
theorem does_flock {fd : Nat} {mode : FlockMode} {nonblock : Bool} {o : OpenFile} (ho : K.opened fd = some o)
    {r : Bool} (h : Does may i (.flock fd mode nonblock) K r K') :
    r = true ∧ K.grants fd o.ino mode = true ∧ K' = K.setOpen fd (some { o with lock := some mode }) ∨
      r = false ∧ K' = K := by
  rcases does_iff.mp h with h | ⟨-, φ, h⟩
  · exact (exec_flock ho h).imp_right fun h => ⟨h.1, h.2.1⟩
  · cases φ <;>
    · obtain ⟨rfl, rfl⟩ := Prod.mk.inj (Option.some.inj h)
      exact .inr ⟨rfl, rfl⟩

theorem does_readdir {path : Text} {r : Option (List Text)} (h : Does may i (.readdir path) K r K') :
    K' = K ∧ (r = none ∨ exec i (.readdir path) K = some (r, K)) := by
  rcases does_iff.mp h with h | ⟨-, φ, h⟩
  · obtain ⟨hr, rfl⟩ := Prod.mk.inj (Option.some.inj h)
    exact ⟨rfl, .inr h⟩
  · cases φ <;>
    · obtain ⟨rfl, rfl⟩ := Prod.mk.inj (Option.some.inj h)
      exact ⟨rfl, .inl rfl⟩

/-- A `write` takes the front of the bytes. -/
theorem does_write {fd : Nat} {bytes : List UInt8} {o : OpenFile} (ho : K.opened fd = some o)
    {r : Option Nat} (h : Does may i (.write fd bytes) K r K') :
    r = none ∧ K' = K ∨ ∃ n, n ≤ bytes.length ∧ r = some n ∧ K'.used < 2 ^ 64 ∧
      K' = (K.setData o.ino (overwrite (K.data o.ino) o.offset (bytes.take n))).setOpen fd
        (some { o with offset := o.offset + n }) := by
  rcases does_iff.mp h with h | ⟨-, φ, h⟩
  · rcases exec_write ho h with ⟨rfl, hused, rfl⟩ | ⟨rfl, rfl⟩
    · exact .inr ⟨bytes.length, Nat.le_refl _, rfl, hused, by rw [List.take_length]⟩
    · exact .inl ⟨rfl, rfl⟩
  · cases φ with
    | refused =>
        obtain ⟨rfl, rfl⟩ := Prod.mk.inj (Option.some.inj h)
        exact .inl ⟨rfl, rfl⟩
    | short n =>
        rw [falter] at h
        split at h
        next hn =>
          have hlength : (bytes.take n).length = n := by
            rw [List.length_take, Nat.min_eq_left (Nat.le_of_lt hn)]
          rcases exec_write ho h with ⟨rfl, hused, rfl⟩ | ⟨rfl, rfl⟩
          · rw [hlength] at hused ⊢
            exact .inr ⟨n, Nat.le_of_lt hn, rfl, hused, rfl⟩
          · exact .inl ⟨rfl, rfl⟩
        · obtain ⟨rfl, rfl⟩ := Prod.mk.inj (Option.some.inj h)
          exact .inl ⟨rfl, rfl⟩

end Does

end Kernel

end Skunk.Posix
