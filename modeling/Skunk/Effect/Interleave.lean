import Mathlib.Logic.Function.Basic
import Skunk.Effect.Prog

/-!
# Programs that run side by side

Any number of clients run programs over one world, one call at a time and in any order. Between two
calls of one client the others may have made any number of calls, and the world may drift by itself.

`Run` is such a run. To say something about all of them it is enough to look at one client at a time:
`Holds` walks through a program and asks, for each call, what the client may expect of the world when
the call is made (`rely`, `inv`) and what it then owes to the other clients (`inv`, and their `rely`).
A ghost component stands for what the world does not record. If every operation of every client meets
its obligation, the invariant survives every step of every run (`Obligations.step`).
-/

namespace Skunk.Effect

/-- What a client is doing: nothing, with the data that it keeps between two operations, or an
operation that is about to make a call. -/
inductive Task (I : Interface) (S : Type) : Type
  | idle (s : S)
  | busy (c : I.Call) (k : I.Reply c → Prog I S)

/-- The client is not in the middle of an operation. -/
def Task.isIdle {I : Interface} {S : Type} : Task I S → Bool
  | .idle _ => true
  | .busy _ _ => false

/-- A program that has returned is done. -/
def Task.of {I : Interface} {S : Type} : Prog I S → Task I S
  | .ret s => .idle s
  | .call c k => .busy c k

/-- The world and the clients. -/
structure Config (I : Interface) (σ S : Type) where
  world : σ
  tasks : Nat → Task I S

/-- What happens in one step. -/
inductive Event (I : Interface) (Op : Type) : Type
  | begun (i : Nat) (op : Op)
  | called (i : Nat) (c : I.Call) (r : I.Reply c)
  | drifted

/-- Clients and the world they share: what a call does (a call that blocks does nothing), how the
world changes by itself, the operations and their programs, and which operations and which calls are
part of the runs that are looked at. -/
structure System (I : Interface) (σ S Op : Type) where
  exec : Nat → (c : I.Call) → σ → Option (I.Reply c × σ)
  drift : σ → σ → Prop
  start : Op → S → Prog I S
  may : Op → Prop
  admits : Nat → (c : I.Call) → σ → I.Reply c → Prop

namespace System

variable {I : Interface} {σ S Op : Type} (sys : System I σ S Op)

/-- One step: a client begins an operation or makes a call, or the world drifts. -/
inductive Step : Config I σ S → Event I Op → Config I σ S → Prop
  | begun {a : Config I σ S} {i : Nat} {s : S} {op : Op} (htask : a.tasks i = .idle s)
      (hmay : sys.may op) :
      Step a (.begun i op)
        { a with tasks := Function.update a.tasks i (.of (sys.start op s)) }
  | called {a : Config I σ S} {i : Nat} {c : I.Call} {k : I.Reply c → Prog I S} {r : I.Reply c}
      {w : σ} (htask : a.tasks i = .busy c k) (hexec : sys.exec i c a.world = some (r, w))
      (hadm : sys.admits i c a.world r) :
      Step a (.called i c r) { world := w, tasks := Function.update a.tasks i (.of (k r)) }
  | drifted {a : Config I σ S} {w : σ} (hdrift : sys.drift a.world w) :
      Step a .drifted { a with world := w }

/-- A run: events, each with the configuration that it leads to. -/
def Run : Config I σ S → List (Event I Op × Config I σ S) → Prop
  | _, [] => True
  | a, (e, b) :: steps => sys.Step a e b ∧ Run b steps

def last : Config I σ S → List (Event I Op × Config I σ S) → Config I σ S
  | a, [] => a
  | _, (_, b) :: steps => last b steps

def Reaches (a b : Config I σ S) : Prop := ∃ steps, sys.Run a steps ∧ last a steps = b

variable {sys}

@[simp] theorem run_nil (a : Config I σ S) : sys.Run a [] := trivial

@[simp] theorem run_cons (a b : Config I σ S) (e : Event I Op) (steps) :
    sys.Run a ((e, b) :: steps) ↔ sys.Step a e b ∧ sys.Run b steps := Iff.rfl

theorem run_append (a : Config I σ S) (front rest) :
    sys.Run a (front ++ rest) ↔ sys.Run a front ∧ sys.Run (last a front) rest := by
  induction front generalizing a with
  | nil => simp [last]
  | cons step front ih =>
      obtain ⟨e, b⟩ := step
      simp only [List.cons_append, run_cons, last, ih, and_assoc]

theorem Reaches.refl (a : Config I σ S) : sys.Reaches a a := ⟨[], trivial, rfl⟩

theorem last_append (a : Config I σ S) (front rest : List (Event I Op × Config I σ S)) :
    last a (front ++ rest) = last (last a front) rest := by
  induction front generalizing a with
  | nil => rfl
  | cons step front ih => exact ih step.2

theorem Reaches.step {a b c : Config I σ S} {e : Event I Op} (h : sys.Reaches a b)
    (hstep : sys.Step b e c) : sys.Reaches a c := by
  obtain ⟨steps, hrun, rfl⟩ := h
  refine ⟨steps ++ [(e, c)], (run_append a steps [(e, c)]).mpr ⟨hrun, hstep, trivial⟩, ?_⟩
  rw [last_append]
  rfl

/-- What every step keeps holds wherever a run leads. -/
theorem Reaches.preserves {P : Config I σ S → Prop} {a b : Config I σ S} (h : sys.Reaches a b)
    (hstep : ∀ {a e b}, P a → sys.Step a e b → P b) (ha : P a) : P b := by
  obtain ⟨steps, hrun, rfl⟩ := h
  induction steps generalizing a with
  | nil => exact ha
  | cons step steps ih =>
      obtain ⟨e, b⟩ := step
      exact ih (hstep ha hrun.1) hrun.2

/-- The client is in the middle of an operation. -/
def Busy (a : Config I σ S) (i : Nat) : Prop := ∃ c k, a.tasks i = .busy c k

/-- Nobody is in the middle of an operation. -/
def Quiescent (a : Config I σ S) : Prop := ∀ i, ¬ Busy a i

/-- The call of the client has to wait. -/
def Blocked (sys : System I σ S Op) (a : Config I σ S) (i : Nat) : Prop :=
  ∃ c k, a.tasks i = .busy c k ∧ sys.exec i c a.world = none

/-- Whether the call of the client has to wait. -/
def isBlocked (sys : System I σ S Op) (a : Config I σ S) (i : Nat) : Bool :=
  match a.tasks i with
  | .busy c _ => (sys.exec i c a.world).isNone
  | .idle _ => false

theorem blocked_of_isBlocked {sys : System I σ S Op} {a : Config I σ S} {i : Nat}
    (h : sys.isBlocked a i = true) : sys.Blocked a i := by
  unfold isBlocked at h
  split at h
  next c k htask => exact ⟨c, k, htask, Option.isNone_iff_eq_none.mp h⟩
  · cases h

/-- There are clients in the middle of operations, and all of them wait. -/
def Deadlocked (sys : System I σ S Op) (a : Config I σ S) : Prop :=
  (∃ i, Busy a i) ∧ ∀ i, Busy a i → sys.Blocked a i

theorem Quiescent.idle {a : Config I σ S} (h : Quiescent a) (i : Nat) : ∃ s, a.tasks i = .idle s := by
  cases htask : a.tasks i with
  | idle s => exact ⟨s, rfl⟩
  | busy c k => exact absurd ⟨c, k, htask⟩ (h i)

theorem quiescent_of_isIdle {a : Config I σ S} (h : ∀ i, (a.tasks i).isIdle = true) : Quiescent a := by
  rintro i ⟨c, k, htask⟩
  have hidle := h i
  rw [htask] at hidle
  cases hidle

/-- The same clients, with only some of the runs. -/
def restrict (sys : System I σ S Op) (cond : Nat → (c : I.Call) → σ → I.Reply c → Prop) :
    System I σ S Op :=
  { sys with admits := fun i c w r => sys.admits i c w r ∧ cond i c w r }

/-- What some of the runs are is a run. -/
theorem Run.of_restrict {cond : Nat → (c : I.Call) → σ → I.Reply c → Prop} {a : Config I σ S}
    {steps : List (Event I Op × Config I σ S)} (h : (sys.restrict cond).Run a steps) : sys.Run a steps := by
  induction steps generalizing a with
  | nil => exact trivial
  | cons step steps ih =>
      obtain ⟨e, b⟩ := step
      obtain ⟨hstep, hrest⟩ := h
      refine ⟨?_, ih hrest⟩
      cases hstep with
      | begun htask hmay => exact .begun htask hmay
      | called htask hexec hadm => exact .called htask hexec hadm.1
      | drifted hdrift => exact .drifted hdrift

/-! ## Running by a schedule -/

section Schedule

variable (sys) [∀ op, Decidable (sys.may op)] [∀ i c w r, Decidable (sys.admits i c w r)]

/-- The next step of the client whose turn it is. -/
def turn (a : Config I σ S) : Nat × Option Op → Option (Event I Op × Config I σ S)
  | (i, some op) =>
    match a.tasks i with
    | .idle s =>
      if sys.may op then
        some (.begun i op, { a with tasks := Function.update a.tasks i (.of (sys.start op s)) })
      else none
    | .busy _ _ => none
  | (i, none) =>
    match a.tasks i with
    | .idle _ => none
    | .busy c k =>
      match sys.exec i c a.world with
      | none => none
      | some (r, w) =>
        if sys.admits i c a.world r then
          some (.called i c r, { world := w, tasks := Function.update a.tasks i (.of (k r)) })
        else none

/-- Clients that take turns. -/
def follow : Config I σ S → List (Nat × Option Op) → Option (List (Event I Op × Config I σ S))
  | _, [] => some []
  | a, t :: ts =>
    match turn sys a t with
    | none => none
    | some step => (follow step.2 ts).map fun steps => step :: steps

variable {sys}

instance (cond : Nat → (c : I.Call) → σ → I.Reply c → Prop) [∀ i c w r, Decidable (cond i c w r)] :
    ∀ i c w r, Decidable ((sys.restrict cond).admits i c w r) :=
  fun i c w r => inferInstanceAs (Decidable (sys.admits i c w r ∧ cond i c w r))

instance (cond : Nat → (c : I.Call) → σ → I.Reply c → Prop) :
    ∀ op, Decidable ((sys.restrict cond).may op) := fun op => inferInstanceAs (Decidable (sys.may op))

theorem step_of_turn {a : Config I σ S} {t : Nat × Option Op} {step : Event I Op × Config I σ S}
    (h : turn sys a t = some step) :
    sys.Step a step.1 step.2 ∧ ∀ j, j ≠ t.1 → step.2.tasks j = a.tasks j := by
  obtain ⟨i, _ | op⟩ := t
  · rw [turn] at h
    split at h
    · cases h
    next c k htask =>
      split at h
      · cases h
      next r w hexec =>
        split at h
        next hadm =>
          obtain rfl := Option.some.inj h
          exact ⟨.called htask hexec hadm, fun j hj => Function.update_of_ne hj _ _⟩
        · cases h
  · rw [turn] at h
    split at h
    next s htask =>
      split at h
      next hmay =>
        obtain rfl := Option.some.inj h
        exact ⟨.begun htask hmay, fun j hj => Function.update_of_ne hj _ _⟩
      · cases h
    · cases h

/-- Turns make a run, in which only those act that have turns. -/
theorem run_of_follow {a : Config I σ S} {ts : List (Nat × Option Op)}
    {steps : List (Event I Op × Config I σ S)} (h : follow sys a ts = some steps) :
    sys.Run a steps ∧ ∀ j, (∀ t ∈ ts, t.1 ≠ j) → (last a steps).tasks j = a.tasks j := by
  induction ts generalizing a steps with
  | nil =>
      obtain rfl := Option.some.inj h
      exact ⟨trivial, fun _ _ => rfl⟩
  | cons t ts ih =>
      rw [follow] at h
      split at h
      · cases h
      next step hturn =>
        obtain ⟨rest, hrest, rfl⟩ := Option.map_eq_some_iff.mp h
        obtain ⟨hstep, hsame⟩ := step_of_turn hturn
        obtain ⟨hrun, hothers⟩ := ih hrest
        refine ⟨⟨hstep, hrun⟩, fun j hj => ?_⟩
        show (last step.2 rest).tasks j = a.tasks j
        rw [hothers j fun t' ht' => hj t' (List.mem_cons_of_mem t ht'),
          hsame j (Ne.symm (hj t List.mem_cons_self))]

variable (sys) in
/-- Turns make a run with a property that can be tested. -/
theorem exists_run (a : Config I σ S) (ts : List (Nat × Option Op))
    {p : List (Event I Op × Config I σ S) → Bool} (h : (follow sys a ts).any p = true) :
    ∃ steps, sys.Run a steps ∧ p steps = true ∧
      ∀ j, (∀ t ∈ ts, t.1 ≠ j) → (last a steps).tasks j = a.tasks j := by
  obtain ⟨steps, hsteps, hp⟩ := (Option.any_eq_true _ _).mp h
  obtain ⟨hrun, hothers⟩ := run_of_follow hsteps
  exact ⟨steps, hrun, hp, hothers⟩

variable (sys) in
/-- Turns of some clients that end with nobody in the middle of an operation. -/
theorem exists_quiescent (a : Config I σ S) (ts : List (Nat × Option Op)) (clients : List Nat)
    {p : List (Event I Op × Config I σ S) → Bool} (hts : ∀ t ∈ ts, t.1 ∈ clients)
    (ha : ∀ j, (a.tasks j).isIdle = true)
    (h : (follow sys a ts).any (fun steps =>
      (clients.all fun j => ((last a steps).tasks j).isIdle) && p steps) = true) :
    ∃ steps, sys.Run a steps ∧ Quiescent (last a steps) ∧ p steps = true := by
  obtain ⟨steps, hrun, hp, hothers⟩ := exists_run sys a ts h
  rw [Bool.and_eq_true, List.all_eq_true] at hp
  refine ⟨steps, hrun, quiescent_of_isIdle fun j => ?_, hp.2⟩
  by_cases hj : j ∈ clients
  · exact hp.1 j hj
  · rw [hothers j fun t ht heq => hj (heq ▸ hts t ht)]
    exact ha j

end Schedule

end System

/-! ## What clients owe to each other -/

/-- How clients share a world, with a ghost component: what always holds, what a client may rely on
between its calls, what must hold for it to make a call, and what a call must do to the ghost
component. -/
structure Protocol (I : Interface) (σ γ : Type) where
  inv : σ × γ → Prop
  rely : Nat → σ × γ → σ × γ → Prop
  safe : Nat → I.Call → σ × γ → Prop
  mark : Nat → (c : I.Call) → I.Reply c → σ × γ → σ × γ → Prop
  rely_refl : ∀ i s, rely i s s
  rely_trans : ∀ {i s s' s''}, rely i s s' → rely i s' s'' → rely i s s''

section Holds

variable {I : Interface} {σ γ S Op α β : Type} (sys : System I σ S Op) (P : Protocol I σ γ) (i : Nat)

/-- Run by client `i`, the program keeps the protocol, and when it returns, `Q` holds. -/
def Holds : Prog I α → (α → σ × γ → Prop) → σ × γ → Prop
  | .ret a, Q, s => ∀ s', P.rely i s s' → P.inv s' → Q a s'
  | .call c k, Q, s => ∀ s', P.rely i s s' → P.inv s' →
      P.safe i c s' ∧ ∀ r w, sys.exec i c s'.1 = some (r, w) → sys.admits i c s'.1 r →
        ∃ g, P.inv (w, g) ∧ P.mark i c r s' (w, g) ∧ (∀ j, j ≠ i → P.rely j s' (w, g)) ∧
          Holds (k r) Q (w, g)

variable {sys P i}

theorem Holds.stable {p : Prog I α} {Q : α → σ × γ → Prop} {s s' : σ × γ}
    (h : Holds sys P i p Q s) (hrely : P.rely i s s') : Holds sys P i p Q s' := by
  cases p with
  | ret a => exact fun s'' h'' => h s'' (P.rely_trans hrely h'')
  | call c k => exact fun s'' h'' => h s'' (P.rely_trans hrely h'')

/-- A weaker conclusion; the new one may use that the invariant holds. -/
theorem Holds.mono {p : Prog I α} {Q Q' : α → σ × γ → Prop} {s : σ × γ}
    (h : Holds sys P i p Q s) (himp : ∀ a s', P.inv s' → Q a s' → Q' a s') :
    Holds sys P i p Q' s := by
  induction p generalizing s with
  | ret a => exact fun s' hrely hinv => himp a s' hinv (h s' hrely hinv)
  | call c k ih =>
      intro s' hrely hinv
      obtain ⟨hsafe, hnext⟩ := h s' hrely hinv
      refine ⟨hsafe, fun r w hexec hadm => ?_⟩
      obtain ⟨g, hinv', hmark, hothers, hrest⟩ := hnext r w hexec hadm
      exact ⟨g, hinv', hmark, hothers, ih r hrest⟩

/-- One program after another. -/
theorem Holds.bind {p : Prog I α} {f : α → Prog I β} {Q : β → σ × γ → Prop} {s : σ × γ}
    (hinv : P.inv s) (h : Holds sys P i p (fun a => Holds sys P i (f a) Q) s) :
    Holds sys P i (p >>= f) Q s := by
  induction p generalizing s with
  | ret a => exact h s (P.rely_refl i s) hinv
  | call c k ih =>
      intro s' hrely hinv'
      obtain ⟨hsafe, hnext⟩ := h s' hrely hinv'
      refine ⟨hsafe, fun r w hexec hadm => ?_⟩
      obtain ⟨g, hinv'', hmark, hothers, hrest⟩ := hnext r w hexec hadm
      exact ⟨g, hinv'', hmark, hothers, ih r hinv'' hrest⟩

/-- A program that returns at once. -/
theorem Holds.ret {a : α} {Q : α → σ × γ → Prop} {s : σ × γ}
    (h : ∀ s', P.rely i s s' → P.inv s' → Q a s') : Holds sys P i (.ret a) Q s := h

end Holds

/-! ## From one client to all of them -/

/-- Every operation keeps the protocol: `idle i s` is what holds when client `i` is not busy and keeps
the data `s`. -/
structure Obligations {I : Interface} {σ γ S Op : Type} (sys : System I σ S Op)
    (P : Protocol I σ γ) (idle : Nat → S → σ × γ → Prop) : Prop where
  stable : ∀ {i s x y}, idle i s x → P.rely i x y → P.inv y → idle i s y
  start : ∀ {i s x op}, sys.may op → P.inv x → idle i s x →
    Holds sys P i (sys.start op s) (idle i) x
  drift : ∀ {w w' g}, sys.drift w w' → P.inv (w, g) →
    P.inv (w', g) ∧ ∀ i, P.rely i (w, g) (w', g)

section Coupled

variable {I : Interface} {σ γ S Op : Type} (sys : System I σ S Op) (P : Protocol I σ γ)
  (idle : Nat → S → σ × γ → Prop)

/-- What holds of one client. -/
def Task.Fits (i : Nat) (x : σ × γ) : Task I S → Prop
  | .idle s => idle i s x
  | .busy c k => Holds sys P i (.call c k) (idle i) x

/-- What holds of a configuration between two steps. -/
structure Coupled (a : Config I σ S) (g : γ) : Prop where
  inv : P.inv (a.world, g)
  fits : ∀ i, (a.tasks i).Fits sys P idle i (a.world, g)

variable {sys P idle}

theorem Task.Fits.of_holds {i : Nat} {x : σ × γ} {p : Prog I S} (hinv : P.inv x)
    (h : Holds sys P i p (idle i) x) : (Task.of p).Fits sys P idle i x := by
  cases p with
  | ret s => exact h x (P.rely_refl i x) hinv
  | call c k => exact h

variable (ob : Obligations sys P idle)
include ob

theorem Obligations.fits_stable {i : Nat} {x y : σ × γ} {t : Task I S}
    (h : t.Fits sys P idle i x) (hrely : P.rely i x y) (hinv : P.inv y) :
    t.Fits sys P idle i y := by
  cases t with
  | idle s => exact ob.stable h hrely hinv
  | busy c k => exact Holds.stable h hrely

/-- What a step does to the ghost component. -/
def Marked (P : Protocol I σ γ) (a b : Config I σ S) (g g' : γ) : Event I Op → Prop
  | .called i c r => P.mark i c r (a.world, g) (b.world, g')
  | _ => g' = g

/-- The client that makes the call of a step. -/
def Event.caller : Event I Op → Option Nat
  | .called i _ _ => some i
  | _ => none

/-- Every step keeps what holds of the configuration, and what the clients rely on that did not make
it. -/
theorem Obligations.step {a b : Config I σ S} {e : Event I Op} {g : γ}
    (h : Coupled sys P idle a g) (hstep : sys.Step a e b) :
    ∃ g', Coupled sys P idle b g' ∧ Marked P a b g g' e ∧
      ∀ j, e.caller ≠ some j → P.rely j (a.world, g) (b.world, g') := by
  cases hstep with
  | @begun i s op htask hmay =>
      refine ⟨g, ⟨h.inv, fun j => ?_⟩, rfl, fun j _ => P.rely_refl j _⟩
      by_cases hj : j = i
      · subst hj
        have hidle : idle j s (a.world, g) := by
          have := h.fits j
          rwa [htask] at this
        show Task.Fits sys P idle j (a.world, g) (Function.update a.tasks j _ j)
        rw [Function.update_self]
        exact .of_holds h.inv (ob.start hmay h.inv hidle)
      · show Task.Fits sys P idle j (a.world, g) (Function.update a.tasks i _ j)
        rw [Function.update_of_ne hj]
        exact h.fits j
  | @called i c k r w htask hexec hadm =>
      have hbusy : Holds sys P i (.call c k) (idle i) (a.world, g) := by
        have := h.fits i
        rwa [htask] at this
      obtain ⟨-, hnext⟩ := hbusy (a.world, g) (P.rely_refl i _) h.inv
      obtain ⟨g', hinv, hmark, hothers, hrest⟩ := hnext r w hexec hadm
      refine ⟨g', ⟨hinv, fun j => ?_⟩, hmark, fun j hj => hothers j fun heq => hj (by rw [heq]; rfl)⟩
      by_cases hj : j = i
      · subst hj
        show Task.Fits sys P idle j (w, g') (Function.update a.tasks j _ j)
        rw [Function.update_self]
        exact .of_holds hinv hrest
      · show Task.Fits sys P idle j (w, g') (Function.update a.tasks i _ j)
        rw [Function.update_of_ne hj]
        exact ob.fits_stable (h.fits j) (hothers j hj) hinv
  | @drifted w hdrift =>
      obtain ⟨hinv, hrely⟩ := ob.drift hdrift h.inv
      exact ⟨g, ⟨hinv, fun j => ob.fits_stable (h.fits j) (hrely j) hinv⟩, rfl, fun j _ => hrely j⟩

/-- Wherever a run leads, what holds of a configuration still holds. -/
theorem Obligations.reaches {a b : Config I σ S} {g : γ} (h : Coupled sys P idle a g)
    (hreach : sys.Reaches a b) : ∃ g', Coupled sys P idle b g' := by
  refine hreach.preserves (P := fun c => ∃ g', Coupled sys P idle c g') ?_ ⟨g, h⟩
  rintro c e d ⟨g', hc⟩ hstep
  obtain ⟨g'', hd, -, -⟩ := ob.step hc hstep
  exact ⟨g'', hd⟩

omit ob in
/-- A call that is about to be made is safe. -/
theorem Coupled.safe {a : Config I σ S} {g : γ} {i : Nat} {c : I.Call} {k : I.Reply c → Prog I S}
    (h : Coupled sys P idle a g) (htask : a.tasks i = .busy c k) :
    P.safe i c (a.world, g) := by
  have hbusy : Holds sys P i (.call c k) (idle i) (a.world, g) := by
    have := h.fits i
    rwa [htask] at this
  exact (hbusy (a.world, g) (P.rely_refl i _) h.inv).1

omit ob in
/-- What holds of a client that is not busy. -/
theorem Coupled.idle_of {a : Config I σ S} {g : γ} {i : Nat} {s : S}
    (h : Coupled sys P idle a g) (htask : a.tasks i = .idle s) : idle i s (a.world, g) := by
  have := h.fits i
  rwa [htask] at this

end Coupled

end Skunk.Effect
