import Mathlib.Logic.Relation
import Skunk.Effect.Interleave

/-!
# Side by side, when calls may go wrong

Clients that share a world, as in `Interleave`, but a call has one of several outcomes: it succeeds, it
fails, or it does a part of its work. `exec` takes the outcome as an argument, a step has any of them, and
which ones belong to the runs that are looked at may depend on the operation that makes the call.

`Keeps` is `Holds` for such calls: whatever the outcome, the client keeps the protocol.
-/

namespace Skunk.Effect

/-- What a client is doing: nothing, or the operation `op`, which it has begun with the data `s`. -/
inductive Doing (I : Interface) (S Op : Type) : Type
  | idle (s : S)
  | busy (op : Op) (s : S) (c : I.Call) (k : I.Reply c → Prog I S)

/-- A program that has returned is done. -/
def Doing.of {I : Interface} {S Op : Type} (op : Op) (s : S) : Prog I S → Doing I S Op
  | .ret s' => .idle s'
  | .call c k => .busy op s c k

/-- The world and the clients. -/
structure Scene (I : Interface) (σ S Op : Type) where
  world : σ
  doing : Nat → Doing I S Op

/-- Clients and the world they share. `ι` is what may happen to a call. -/
structure Machine (I : Interface) (σ S Op ι : Type) where
  exec : ι → Nat → (c : I.Call) → σ → Option (I.Reply c × σ)
  drift : σ → σ → Prop
  start : Op → S → Prog I S
  may : Op → Prop
  admits : Op → S → (c : I.Call) → σ → I.Reply c → σ → Prop

namespace Machine

variable {I : Interface} {σ γ S Op ι α β : Type} (m : Machine I σ S Op ι)

/-- One step: a client begins an operation or makes a call, or the world drifts. -/
inductive Step : Scene I σ S Op → Scene I σ S Op → Prop
  | begun {a : Scene I σ S Op} {i : Nat} {s : S} {op : Op} (hdoing : a.doing i = .idle s)
      (hmay : m.may op) :
      Step a { a with doing := Function.update a.doing i (.of op s (m.start op s)) }
  | called {a : Scene I σ S Op} {i : Nat} {op : Op} {s : S} {c : I.Call} {k : I.Reply c → Prog I S}
      {x : ι} {r : I.Reply c} {w : σ} (hdoing : a.doing i = .busy op s c k)
      (hexec : m.exec x i c a.world = some (r, w)) (hadm : m.admits op s c a.world r w) :
      Step a { world := w, doing := Function.update a.doing i (.of op s (k r)) }
  | drifted {a : Scene I σ S Op} {w : σ} (hdrift : m.drift a.world w) : Step a { a with world := w }

def Reaches : Scene I σ S Op → Scene I σ S Op → Prop := Relation.ReflTransGen m.Step

/-- The same clients, with only some of the runs. -/
def restrict (cond : Op → S → (c : I.Call) → σ → I.Reply c → σ → Prop) : Machine I σ S Op ι :=
  { m with admits := fun op s c w r w' => m.admits op s c w r w' ∧ cond op s c w r w' }

/-! ## By a schedule -/

section Schedule

variable [∀ op, Decidable (m.may op)] [∀ op s c w r w', Decidable (m.admits op s c w r w')]

/-- The next step of the client whose turn it is: it begins an operation, or its call has the outcome
`x`. -/
def turn (a : Scene I σ S Op) : Nat × (Op ⊕ ι) → Option (Scene I σ S Op)
  | (i, .inl op) =>
    match a.doing i with
    | .idle s =>
      if m.may op then some { a with doing := Function.update a.doing i (.of op s (m.start op s)) }
      else none
    | .busy _ _ _ _ => none
  | (i, .inr x) =>
    match a.doing i with
    | .idle _ => none
    | .busy op s c k =>
      match m.exec x i c a.world with
      | none => none
      | some (r, w) =>
        if m.admits op s c a.world r w then
          some { world := w, doing := Function.update a.doing i (.of op s (k r)) }
        else none

/-- Clients that take turns. -/
def follow : Scene I σ S Op → List (Nat × (Op ⊕ ι)) → Option (Scene I σ S Op)
  | a, [] => some a
  | a, t :: ts => (m.turn a t).bind fun b => follow b ts

variable {m}

instance (cond : Op → S → (c : I.Call) → σ → I.Reply c → σ → Prop)
    [∀ op s c w r w', Decidable (cond op s c w r w')] :
    ∀ op s c w r w', Decidable ((m.restrict cond).admits op s c w r w') :=
  fun op s c w r w' => inferInstanceAs (Decidable (m.admits op s c w r w' ∧ cond op s c w r w'))

instance (cond : Op → S → (c : I.Call) → σ → I.Reply c → σ → Prop) :
    ∀ op, Decidable ((m.restrict cond).may op) := fun op => inferInstanceAs (Decidable (m.may op))

theorem step_of_turn {a b : Scene I σ S Op} {t : Nat × (Op ⊕ ι)} (h : m.turn a t = some b) : m.Step a b := by
  obtain ⟨i, op | x⟩ := t
  · rw [turn] at h
    split at h
    next s hdoing =>
      split at h
      next hmay =>
        obtain rfl := Option.some.inj h
        exact .begun hdoing hmay
      · cases h
    · cases h
  · rw [turn] at h
    split at h
    · cases h
    next op s c k hdoing =>
      split at h
      · cases h
      next r w hexec =>
        split at h
        next hadm =>
          obtain rfl := Option.some.inj h
          exact .called hdoing hexec hadm
        · cases h

theorem reaches_of_follow {a b : Scene I σ S Op} {ts : List (Nat × (Op ⊕ ι))}
    (h : m.follow a ts = some b) : m.Reaches a b := by
  induction ts generalizing a with
  | nil =>
      obtain rfl := Option.some.inj h
      exact .refl
  | cons t ts ih =>
      obtain ⟨c, hturn, hrest⟩ := Option.bind_eq_some_iff.mp h
      exact .head (step_of_turn hturn) (ih hrest)

variable (m) in
/-- Turns that lead to something that can be tested. -/
theorem exists_reaches (a : Scene I σ S Op) (ts : List (Nat × (Op ⊕ ι))) {p : Scene I σ S Op → Bool}
    (h : (m.follow a ts).any p = true) : ∃ b, m.Reaches a b ∧ p b = true := by
  obtain ⟨b, hfollow, hp⟩ := (Option.any_eq_true _ _).mp h
  exact ⟨b, reaches_of_follow hfollow, hp⟩

end Schedule

/-! ## What clients owe to each other -/

variable (P : Protocol I σ γ) (i : Nat) (op : Op) (s₀ : S)

/-- In the operation `op` of client `i`, begun with `s₀`, the program keeps the protocol, and when it
returns, `Q` holds. -/
def Keeps : Prog I α → (α → σ × γ → Prop) → σ × γ → Prop
  | .ret a, Q, s => ∀ s', P.rely i s s' → P.inv s' → Q a s'
  | .call c k, Q, s => ∀ s', P.rely i s s' → P.inv s' →
      P.safe i c s' ∧ ∀ x r w, m.exec x i c s'.1 = some (r, w) → m.admits op s₀ c s'.1 r w →
        ∃ g, P.inv (w, g) ∧ P.mark i c r s' (w, g) ∧ (∀ j, j ≠ i → P.rely j s' (w, g)) ∧
          Keeps (k r) Q (w, g)

variable {m P i op s₀}

theorem Keeps.stable {p : Prog I α} {Q : α → σ × γ → Prop} {s s' : σ × γ}
    (h : Keeps m P i op s₀ p Q s) (hrely : P.rely i s s') : Keeps m P i op s₀ p Q s' := by
  cases p with
  | ret a => exact fun s'' h'' => h s'' (P.rely_trans hrely h'')
  | call c k => exact fun s'' h'' => h s'' (P.rely_trans hrely h'')

/-- A weaker conclusion; the new one may use that the invariant holds. -/
theorem Keeps.mono {p : Prog I α} {Q Q' : α → σ × γ → Prop} {s : σ × γ}
    (h : Keeps m P i op s₀ p Q s) (himp : ∀ a s', P.inv s' → Q a s' → Q' a s') :
    Keeps m P i op s₀ p Q' s := by
  induction p generalizing s with
  | ret a => exact fun s' hrely hinv => himp a s' hinv (h s' hrely hinv)
  | call c k ih =>
      intro s' hrely hinv
      obtain ⟨hsafe, hnext⟩ := h s' hrely hinv
      refine ⟨hsafe, fun x r w hexec hadm => ?_⟩
      obtain ⟨g, hinv', hmark, hothers, hrest⟩ := hnext x r w hexec hadm
      exact ⟨g, hinv', hmark, hothers, ih r hrest⟩

/-- One program after another. -/
theorem Keeps.bind {p : Prog I α} {f : α → Prog I β} {Q : β → σ × γ → Prop} {s : σ × γ}
    (hinv : P.inv s) (h : Keeps m P i op s₀ p (fun a => Keeps m P i op s₀ (f a) Q) s) :
    Keeps m P i op s₀ (p >>= f) Q s := by
  induction p generalizing s with
  | ret a => exact h s (P.rely_refl i s) hinv
  | call c k ih =>
      intro s' hrely hinv'
      obtain ⟨hsafe, hnext⟩ := h s' hrely hinv'
      refine ⟨hsafe, fun x r w hexec hadm => ?_⟩
      obtain ⟨g, hinv'', hmark, hothers, hrest⟩ := hnext x r w hexec hadm
      exact ⟨g, hinv'', hmark, hothers, ih r hinv'' hrest⟩

/-! ## From one client to all of them -/

variable (m P)

/-- Every operation keeps the protocol: `idle i s` is what holds when client `i` is not busy and keeps the
data `s`. -/
structure Obligations (idle : Nat → S → σ × γ → Prop) : Prop where
  stable : ∀ {i s x y}, idle i s x → P.rely i x y → P.inv y → idle i s y
  start : ∀ {i s x op}, m.may op → P.inv x → idle i s x → Keeps m P i op s (m.start op s) (idle i) x
  drift : ∀ {w w' g}, m.drift w w' → P.inv (w, g) → P.inv (w', g) ∧ ∀ i, P.rely i (w, g) (w', g)

variable (idle : Nat → S → σ × γ → Prop)

/-- What holds of one client. -/
def Fits (i : Nat) (x : σ × γ) : Doing I S Op → Prop
  | .idle s => idle i s x
  | .busy op s c k => Keeps m P i op s (.call c k) (idle i) x

/-- What holds between two steps. -/
structure Coupled (a : Scene I σ S Op) (g : γ) : Prop where
  inv : P.inv (a.world, g)
  fits : ∀ i, Fits m P idle i (a.world, g) (a.doing i)

variable {m P idle}

theorem Fits.of_keeps {i : Nat} {x : σ × γ} {op : Op} {s : S} {p : Prog I S} (hinv : P.inv x)
    (h : Keeps m P i op s p (idle i) x) : Fits m P idle i x (.of op s p) := by
  cases p with
  | ret s => exact h x (P.rely_refl i x) hinv
  | call c k => exact h

theorem Obligations.fits_stable (ob : Obligations m P idle) {i : Nat} {x y : σ × γ} {t : Doing I S Op}
    (h : Fits m P idle i x t) (hrely : P.rely i x y) (hinv : P.inv y) : Fits m P idle i y t := by
  cases t with
  | idle s => exact ob.stable h hrely hinv
  | busy op s c k => exact Keeps.stable h hrely

/-- Every step keeps what holds. -/
theorem Obligations.step (ob : Obligations m P idle) {a b : Scene I σ S Op} {g : γ}
    (h : Coupled m P idle a g) (hstep : m.Step a b) : ∃ g', Coupled m P idle b g' := by
  cases hstep with
  | @begun i s op hdoing hmay =>
      refine ⟨g, h.inv, fun j => ?_⟩
      by_cases hj : j = i
      · subst hj
        have hidle : idle j s (a.world, g) := by
          have := h.fits j
          rwa [hdoing] at this
        show Fits m P idle j (a.world, g) (Function.update a.doing j _ j)
        rw [Function.update_self]
        exact .of_keeps h.inv (ob.start hmay h.inv hidle)
      · show Fits m P idle j (a.world, g) (Function.update a.doing i _ j)
        rw [Function.update_of_ne hj]
        exact h.fits j
  | @called i op s c k x r w hdoing hexec hadm =>
      have hbusy : Keeps m P i op s (.call c k) (idle i) (a.world, g) := by
        have := h.fits i
        rwa [hdoing] at this
      obtain ⟨-, hnext⟩ := hbusy (a.world, g) (P.rely_refl i _) h.inv
      obtain ⟨g', hinv, -, hothers, hrest⟩ := hnext x r w hexec hadm
      refine ⟨g', hinv, fun j => ?_⟩
      by_cases hj : j = i
      · subst hj
        show Fits m P idle j (w, g') (Function.update a.doing j _ j)
        rw [Function.update_self]
        exact .of_keeps hinv hrest
      · show Fits m P idle j (w, g') (Function.update a.doing i _ j)
        rw [Function.update_of_ne hj]
        exact ob.fits_stable (h.fits j) (hothers j hj) hinv
  | @drifted w hdrift =>
      obtain ⟨hinv, hrely⟩ := ob.drift hdrift h.inv
      exact ⟨g, hinv, fun j => ob.fits_stable (h.fits j) (hrely j) hinv⟩

/-- Wherever a run leads, what holds between two steps holds. -/
theorem Obligations.reaches (ob : Obligations m P idle) {a b : Scene I σ S Op} {g : γ}
    (h : Coupled m P idle a g) (hreach : m.Reaches a b) : ∃ g', Coupled m P idle b g' := by
  induction hreach with
  | refl => exact ⟨g, h⟩
  | tail _ hstep ih =>
      obtain ⟨g', hc⟩ := ih
      exact ob.step hc hstep

/-- A call that is about to be made is safe. -/
theorem Coupled.safe {a : Scene I σ S Op} {g : γ} {i : Nat} {op : Op} {s : S} {c : I.Call}
    {k : I.Reply c → Prog I S} (h : Coupled m P idle a g) (hdoing : a.doing i = .busy op s c k) :
    P.safe i c (a.world, g) := by
  have hbusy : Keeps m P i op s (.call c k) (idle i) (a.world, g) := by
    have := h.fits i
    rwa [hdoing] at this
  exact (hbusy (a.world, g) (P.rely_refl i _) h.inv).1

end Machine

end Skunk.Effect
