import Mathlib.Logic.Basic
import Mathlib.Control.Basic

/-!
# Programs over an interface of calls

A program that talks to a library or to an operating system is a tree: it either returns, or it
issues a call and continues with the reply. Keeping the tree, instead of a function of the state,
lets one text of a program be read in several ways:

* `Prog.eval` — against a library that answers every call from fixed data;
* `Prog.run` — against a library that keeps a state of its own;
* one call at a time, interleaved with other programs.

A program over a small interface is a program over any larger one (`Prog.lift`), and what the calls
of the small one cannot touch, it cannot touch. `Throwing` adds exceptions on top. Nothing here
mentions a particular interface.
-/

namespace Skunk.Effect

/-- The calls a program may issue, and the type of the reply to each. -/
structure Interface where
  Call : Type
  Reply : Call → Type

/-- A program over `I`: return, or issue a call and continue with its reply. -/
inductive Prog (I : Interface) (α : Type) : Type
  | ret (a : α)
  | call (c : I.Call) (k : I.Reply c → Prog I α)

namespace Prog

variable {I : Interface} {α β σ : Type}

/-- Sequential composition. -/
def bind : Prog I α → (α → Prog I β) → Prog I β
  | .ret a, f => f a
  | .call c k, f => .call c (fun r => (k r).bind f)

instance : Monad (Prog I) where
  pure := .ret
  bind := bind

def request (c : I.Call) : Prog I (I.Reply c) := .call c .ret

@[simp] theorem pure_def (a : α) : (pure a : Prog I α) = .ret a := rfl

@[simp] theorem ret_bind (a : α) (f : α → Prog I β) : (Prog.ret a >>= f) = f a := rfl

@[simp] theorem call_bind (c : I.Call) (k : I.Reply c → Prog I α) (f : α → Prog I β) :
    (Prog.call c k >>= f) = .call c (fun r => k r >>= f) := rfl

@[simp] theorem request_bind (c : I.Call) (f : I.Reply c → Prog I β) :
    (request c >>= f) = .call c f := rfl

theorem bind_ret (p : Prog I α) : (p >>= Prog.ret) = p := by
  induction p with
  | ret a => rfl
  | call c k ih =>
      rw [call_bind]
      exact congrArg (Prog.call c) (funext ih)

theorem bind_bind {γ : Type} (p : Prog I α) (f : α → Prog I β) (g : β → Prog I γ) :
    ((p >>= f) >>= g) = (p >>= fun a => f a >>= g) := by
  induction p with
  | ret a => rfl
  | call c k ih =>
      simp only [call_bind]
      exact congrArg (Prog.call c) (funext ih)

instance : LawfulMonad (Prog I) :=
  LawfulMonad.mk' _ (fun p => bind_ret p) (fun _ _ => rfl) (fun p f g => bind_bind p f g)

/-! ## Fixed answers -/

/-- Run `p` against a library that answers each call by `h`. -/
def eval (h : ∀ c, I.Reply c) : Prog I α → α
  | .ret a => a
  | .call c k => (k (h c)).eval h

variable (h : ∀ c, I.Reply c)

@[simp] theorem eval_ret (a : α) : (Prog.ret a : Prog I α).eval h = a := rfl

@[simp] theorem eval_call (c : I.Call) (k : I.Reply c → Prog I α) :
    (Prog.call c k).eval h = (k (h c)).eval h := rfl

@[simp] theorem eval_bind (p : Prog I α) (f : α → Prog I β) :
    (p >>= f).eval h = (f (p.eval h)).eval h := by
  induction p with
  | ret a => rfl
  | call c k ih => exact ih (h c)

/-! ## A library with a state -/

/-- Run `p` against a library that answers from its state and may change it. -/
def run (h : (c : I.Call) → σ → I.Reply c × σ) : Prog I α → σ → α × σ
  | .ret a, s => (a, s)
  | .call c k, s => (k (h c s).1).run h (h c s).2

variable (lib : (c : I.Call) → σ → I.Reply c × σ)

@[simp] theorem run_ret (a : α) (s : σ) : (Prog.ret a : Prog I α).run lib s = (a, s) := rfl

@[simp] theorem run_call (c : I.Call) (k : I.Reply c → Prog I α) (s : σ) :
    (Prog.call c k).run lib s = (k (lib c s).1).run lib (lib c s).2 := rfl

@[simp] theorem run_bind (p : Prog I α) (f : α → Prog I β) (s : σ) :
    (p >>= f).run lib s = (f (p.run lib s).1).run lib (p.run lib s).2 := by
  induction p generalizing s with
  | ret a => rfl
  | call c k ih => exact ih (lib c s).1 (lib c s).2

/-- What every call preserves, every program preserves. -/
theorem run_preserves {P : σ → Prop} (hcall : ∀ c s, P s → P (lib c s).2) (p : Prog I α) (s : σ)
    (hs : P s) : P (p.run lib s).2 := by
  induction p generalizing s with
  | ret a => exact hs
  | call c k ih => exact ih (lib c s).1 (lib c s).2 (hcall c s hs)

/-! ## Every call -/

/-- Whatever the replies, every call of the program satisfies `P`. -/
def Every (P : I.Call → Prop) : Prog I α → Prop
  | .ret _ => True
  | .call c k => P c ∧ ∀ r, (k r).Every P

variable {P : I.Call → Prop}

@[simp] theorem every_ret (a : α) : (Prog.ret a : Prog I α).Every P := trivial

@[simp] theorem every_call (c : I.Call) (k : I.Reply c → Prog I α) :
    (Prog.call c k).Every P ↔ P c ∧ ∀ r, (k r).Every P := Iff.rfl

theorem Every.bind {p : Prog I α} {f : α → Prog I β} (hp : p.Every P)
    (hf : ∀ a, (f a).Every P) : (p >>= f).Every P := by
  induction p with
  | ret a => exact hf a
  | call c k ih => exact ⟨hp.1, fun r => ih r (hp.2 r)⟩

theorem Every.of_forall (hP : ∀ c, P c) (p : Prog I α) : p.Every P := by
  induction p with
  | ret a => trivial
  | call c k ih => exact ⟨hP c, ih⟩

end Prog

/-! ## Larger interfaces -/

/-- The calls of `I` are among those of `J`. -/
structure Embedding (I J : Interface) where
  call : I.Call → J.Call
  reply : ∀ c, J.Reply (call c) → I.Reply c

/-- What a library for `J` does with the calls of `I`. -/
def Embedding.restrict {I J : Interface} {σ : Type} (φ : Embedding I J)
    (lib : (c : J.Call) → σ → J.Reply c × σ) (c : I.Call) (s : σ) : I.Reply c × σ :=
  (φ.reply c (lib (φ.call c) s).1, (lib (φ.call c) s).2)

namespace Prog

variable {I J : Interface} {α β σ : Type} (φ : Embedding I J)

/-- A program over `I` as a program over `J`. -/
def lift : Prog I α → Prog J α
  | .ret a => .ret a
  | .call c k => .call (φ.call c) fun r => (k (φ.reply c r)).lift

theorem run_lift (lib : (c : J.Call) → σ → J.Reply c × σ) (p : Prog I α) (s : σ) :
    (p.lift φ).run lib s = p.run (φ.restrict lib) s := by
  induction p generalizing s with
  | ret a => rfl
  | call c k ih => exact ih _ _

theorem eval_lift (lib : ∀ c, J.Reply c) (p : Prog I α) :
    (p.lift φ).eval lib = p.eval fun c => φ.reply c (lib (φ.call c)) := by
  induction p with
  | ret a => rfl
  | call c k ih => exact ih _

theorem Every.lift {P : J.Call → Prop} {p : Prog I α} (h : p.Every fun c => P (φ.call c)) :
    (p.lift φ).Every P := by
  induction p with
  | ret a => trivial
  | call c k ih => exact ⟨h.1, fun r => ih _ (h.2 _)⟩

end Prog

/-! ## Programs that may throw -/

@[simp] theorem ok_bind {ε α β : Type} (a : α) (f : α → Except ε β) :
    (Except.ok a >>= f) = f a := rfl

@[simp] theorem error_bind {ε α β : Type} (e : ε) (f : α → Except ε β) :
    (Except.error e >>= f) = .error e := rfl

/-- What comes out of two computations in a row. -/
theorem bind_eq_ok {ε α β : Type} {x : Except ε α} {f : α → Except ε β} {b : β} :
    (x >>= f) = .ok b ↔ ∃ a, x = .ok a ∧ f a = .ok b := by
  cases x with
  | error e => simp
  | ok a => simp

@[simp] theorem ok_map {ε α β : Type} (a : α) (f : α → β) :
    (f <$> (Except.ok a : Except ε α)) = .ok (f a) := rfl

@[simp] theorem error_map {ε α β : Type} (e : ε) (f : α → β) :
    (f <$> (Except.error e : Except ε α)) = .error e := rfl

@[simp] theorem pure_ok {ε α : Type} (a : α) : (pure a : Except ε α) = .ok a := rfl

/-- A program over `I` that may end with an exception of type `ε`. -/
abbrev Throwing (I : Interface) (ε α : Type) : Type := ExceptT ε (Prog I) α

namespace Throwing

variable {I : Interface} {ε α β : Type}

def request (c : I.Call) : Throwing I ε (I.Reply c) := ExceptT.lift (Prog.request c)

/-- A computation that makes no calls. -/
def ofExcept (x : Except ε α) : Throwing I ε α := ExceptT.mk (.ret x)

/-- `x` as a program over a larger interface. -/
def lift {J : Interface} (φ : Embedding I J) (x : Throwing I ε α) : Throwing J ε α :=
  ExceptT.mk (Prog.lift φ (ExceptT.run x))

/-- The outcome of `x` as a value. -/
def attempt {ε' : Type} (x : Throwing I ε α) : Throwing I ε' (Except ε α) :=
  ExceptT.lift (ExceptT.run x)

/-- `x`, then `cleanup` however `x` ended, then the outcome of `x`: an object whose destructor is
`cleanup`. -/
def ensuring (x : Throwing I ε α) (cleanup : Throwing I ε Unit) : Throwing I ε α := do
  let outcome ← attempt x
  cleanup
  ofExcept outcome

/-- The outcome of `x` against a library that answers each call by `h`. -/
def eval (h : ∀ c, I.Reply c) (x : Throwing I ε α) : Except ε α := Prog.eval h (ExceptT.run x)

variable (h : ∀ c, I.Reply c)

@[simp] theorem eval_pure (a : α) : eval h (pure a : Throwing I ε α) = .ok a := rfl

@[simp] theorem eval_throw (e : ε) : eval h (throw e : Throwing I ε α) = .error e := rfl

@[simp] theorem eval_throwThe (e : ε) :
    eval h (throwThe ε e : Throwing I ε α) = .error e := rfl

@[simp] theorem eval_request (c : I.Call) :
    eval h (request c : Throwing I ε (I.Reply c)) = .ok (h c) := rfl

@[simp] theorem eval_ofExcept (x : Except ε α) :
    eval h (ofExcept x : Throwing I ε α) = x := rfl

@[simp] theorem eval_bind (x : Throwing I ε α) (f : α → Throwing I ε β) :
    eval h (x >>= f) = (eval h x >>= fun a => eval h (f a)) := by
  simp only [eval, ExceptT.run_bind, Prog.eval_bind]
  cases Prog.eval h (ExceptT.run x) <;> rfl

@[simp] theorem eval_map (x : Throwing I ε α) (f : α → β) :
    eval h (f <$> x) = (f <$> eval h x) := by
  rw [← bind_pure_comp, eval_bind]
  cases eval h x <;> rfl

theorem eval_lift {J : Interface} (φ : Embedding I J) (lib : ∀ c, J.Reply c) (x : Throwing I ε α) :
    eval lib (lift φ x) = eval (fun c => φ.reply c (lib (φ.call c))) x :=
  Prog.eval_lift φ lib (ExceptT.run x)

@[simp] theorem eval_attempt {ε' : Type} (x : Throwing I ε α) :
    eval h (attempt x : Throwing I ε' (Except ε α)) = .ok (eval h x) := by
  show Prog.eval h (Except.ok <$> ExceptT.run x) = .ok (Prog.eval h (ExceptT.run x))
  rw [map_eq_pure_bind, Prog.eval_bind]
  rfl

theorem eval_ensuring {x : Throwing I ε α} {cleanup : Throwing I ε Unit}
    (hcleanup : eval h cleanup = .ok ()) : eval h (ensuring x cleanup) = eval h x := by
  rw [ensuring, eval_bind, eval_attempt, ok_bind, eval_bind, hcleanup, ok_bind, eval_ofExcept]

@[simp] theorem eval_ite (p : Prop) [Decidable p] (x y : Throwing I ε α) :
    eval h (if p then x else y) = if p then eval h x else eval h y := by
  split <;> rfl

/-! ### Every call -/

/-- Whatever the replies, every call of `x` satisfies `P`. -/
def Every (P : I.Call → Prop) (x : Throwing I ε α) : Prop := Prog.Every P (ExceptT.run x)

section Every

variable {P : I.Call → Prop}

@[simp] theorem every_pure (a : α) : Every P (pure a : Throwing I ε α) := trivial

@[simp] theorem every_throw (e : ε) : Every P (throw e : Throwing I ε α) := trivial

@[simp] theorem every_ofExcept (x : Except ε α) : Every P (ofExcept x : Throwing I ε α) := trivial

@[simp] theorem every_request (c : I.Call) :
    Every P (request c : Throwing I ε (I.Reply c)) ↔ P c :=
  and_iff_left fun _ => trivial

/-- A program whose first call is `c` satisfies `P` there. -/
theorem Every.of_request_bind {c : I.Call} {f : I.Reply c → Throwing I ε α}
    (h : Every P (request c >>= f)) : P c := h.1

theorem Every.bind {x : Throwing I ε α} {f : α → Throwing I ε β} (hx : Every P x)
    (hf : ∀ a, Every P (f a)) : Every P (x >>= f) := by
  refine Prog.Every.bind hx fun outcome => ?_
  cases outcome with
  | ok a => exact hf a
  | error e => trivial

theorem Every.of_forall (hP : ∀ c, P c) (x : Throwing I ε α) : Every P x :=
  Prog.Every.of_forall hP (ExceptT.run x)

theorem Every.lift {J : Interface} {φ : Embedding I J} {P : J.Call → Prop}
    {x : Throwing I ε α} (h : Every (fun c => P (φ.call c)) x) : Every P (Throwing.lift φ x) :=
  Prog.Every.lift φ h

theorem Every.attempt {ε' : Type} {x : Throwing I ε α} (h : Every P x) :
    Every P (attempt x : Throwing I ε' (Except ε α)) :=
  Prog.Every.bind h fun _ => trivial

theorem Every.ensuring {x : Throwing I ε α} {cleanup : Throwing I ε Unit} (hx : Every P x)
    (hcleanup : Every P cleanup) : Every P (ensuring x cleanup) :=
  hx.attempt.bind fun _ => hcleanup.bind fun _ => every_ofExcept _

end Every

/-! ### A library with a state -/

section Run

variable {σ : Type} (lib : (c : I.Call) → σ → I.Reply c × σ)

/-- The outcome of `x` and the state that it leaves. -/
def run (x : Throwing I ε α) (s : σ) : Except ε α × σ := Prog.run lib (ExceptT.run x) s

@[simp] theorem run_pure (a : α) (s : σ) :
    run lib (pure a : Throwing I ε α) s = (.ok a, s) := rfl

@[simp] theorem run_throw (e : ε) (s : σ) :
    run lib (throw e : Throwing I ε α) s = (.error e, s) := rfl

@[simp] theorem run_request (c : I.Call) (s : σ) :
    run lib (request c : Throwing I ε (I.Reply c)) s = (.ok (lib c s).1, (lib c s).2) := rfl

@[simp] theorem run_ofExcept (x : Except ε α) (s : σ) :
    run lib (ofExcept x : Throwing I ε α) s = (x, s) := rfl

theorem run_bind (x : Throwing I ε α) (f : α → Throwing I ε β) (s : σ) :
    run lib (x >>= f) s =
      match run lib x s with
      | (.ok a, s') => run lib (f a) s'
      | (.error e, s') => (.error e, s') := by
  simp only [run, ExceptT.run_bind, Prog.run_bind]
  rcases Prog.run lib (ExceptT.run x) s with ⟨outcome | outcome, s'⟩
  · rfl
  · rfl

/-- Sequencing after a computation that returns. -/
theorem run_bind_ok {x : Throwing I ε α} {f : α → Throwing I ε β} {s s' : σ} {a : α}
    (h : run lib x s = (.ok a, s')) : run lib (x >>= f) s = run lib (f a) s' := by
  rw [run_bind, h]

/-- Sequencing after a computation that throws. -/
theorem run_bind_error {x : Throwing I ε α} {f : α → Throwing I ε β} {s s' : σ} {e : ε}
    (h : run lib x s = (.error e, s')) : run lib (x >>= f) s = (.error e, s') := by
  rw [run_bind, h]

@[simp] theorem run_attempt {ε' : Type} (x : Throwing I ε α) (s : σ) :
    run lib (attempt x : Throwing I ε' (Except ε α)) s =
      (.ok (run lib x s).1, (run lib x s).2) := by
  show Prog.run lib (ExceptT.run (ExceptT.lift (ExceptT.run x))) s = _
  rw [ExceptT.run_lift, map_eq_pure_bind, Prog.run_bind]
  rfl

theorem run_preserves {P : σ → Prop} (hcall : ∀ c s, P s → P (lib c s).2)
    (x : Throwing I ε α) (s : σ) (hs : P s) : P (run lib x s).2 :=
  Prog.run_preserves lib hcall (ExceptT.run x) s hs

theorem run_lift {J : Interface} (φ : Embedding I J) (lib : (c : J.Call) → σ → J.Reply c × σ)
    (x : Throwing I ε α) (s : σ) : run lib (lift φ x) s = run (φ.restrict lib) x s :=
  Prog.run_lift φ lib (ExceptT.run x) s

end Run

end Throwing

end Skunk.Effect
