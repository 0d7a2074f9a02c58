import Skunk.Effect.Prog

/-!
# Runs with a record of the calls

A program against a library that may do one of several things at each call: succeed, fail, or do only a
part of what it was asked for. `does` says what a call may do. `Prog.Runs` relates a program and a state
to the calls that were made, each with its reply and the states around it, and to the outcome. What went
wrong in a run can then be read off its record.

`Prog.play` is the same with a script that says which of the things the library does at each call.
-/

namespace Skunk.Effect

/-- A call that was made: the state before it, its reply, and the state after it. -/
structure Issued (I : Interface) (σ : Type) where
  before : σ
  call : I.Call
  reply : I.Reply call
  after : σ

namespace Prog

variable {I : Interface} {α β σ ι : Type}

/-- The program makes the calls of the record and returns. -/
def Runs (does : (c : I.Call) → σ → I.Reply c → σ → Prop) :
    Prog I α → σ → List (Issued I σ) → α → σ → Prop
  | .ret a, s, t, b, s' => t = [] ∧ b = a ∧ s' = s
  | .call c k, s, t, b, s' => ∃ r s₁ t', does c s r s₁ ∧ t = ⟨s, c, r, s₁⟩ :: t' ∧
      (k r).Runs does s₁ t' b s'

variable {does : (c : I.Call) → σ → I.Reply c → σ → Prop}

@[simp] theorem runs_ret {a b : α} {s s' : σ} {t : List (Issued I σ)} :
    (Prog.ret a : Prog I α).Runs does s t b s' ↔ t = [] ∧ b = a ∧ s' = s := Iff.rfl

@[simp] theorem runs_pure {a b : α} {s s' : σ} {t : List (Issued I σ)} :
    (pure a : Prog I α).Runs does s t b s' ↔ t = [] ∧ b = a ∧ s' = s := Iff.rfl

/-- One program, then another. -/
theorem runs_bind {p : Prog I α} {f : α → Prog I β} {b : β} {s s' : σ} {t : List (Issued I σ)} :
    (p >>= f).Runs does s t b s' ↔ ∃ t₁ t₂ a s₁, t = t₁ ++ t₂ ∧ p.Runs does s t₁ a s₁ ∧
      (f a).Runs does s₁ t₂ b s' := by
  induction p generalizing s t with
  | ret a =>
      constructor
      · exact fun h => ⟨[], t, a, s, rfl, ⟨rfl, rfl, rfl⟩, h⟩
      · rintro ⟨_, t₂, _, _, rfl, ⟨rfl, rfl, rfl⟩, h⟩
        exact h
  | call c k ih =>
      rw [call_bind, Runs]
      constructor
      · rintro ⟨r, s₁, t', hdoes, rfl, h⟩
        obtain ⟨t₁, t₂, a, s₂, rfl, hp, hf⟩ := (ih r).mp h
        exact ⟨⟨s, c, r, s₁⟩ :: t₁, t₂, a, s₂, rfl, ⟨r, s₁, t₁, hdoes, rfl, hp⟩, hf⟩
      · rintro ⟨_, t₂, a, s₂, rfl, ⟨r, s₁, t₁, hdoes, rfl, hp⟩, hf⟩
        exact ⟨r, s₁, t₁ ++ t₂, hdoes, rfl, (ih r).mpr ⟨t₁, t₂, a, s₂, rfl, hp, hf⟩⟩

/-- What every call that the program makes preserves is preserved. -/
theorem Runs.preserves {P : I.Call → Prop} {Q : σ → Prop} {p : Prog I α} {a : α} {s s' : σ}
    {t : List (Issued I σ)} (h : p.Runs does s t a s') (hp : p.Every P)
    (hcall : ∀ c s r s', P c → does c s r s' → Q s → Q s') (hs : Q s) : Q s' := by
  induction p generalizing s t with
  | ret b =>
      obtain ⟨-, -, rfl⟩ := h
      exact hs
  | call c k ih =>
      obtain ⟨r, s₁, t', hdoes, rfl, h⟩ := h
      exact ih r h (hp.2 r) (hcall c s r s₁ hp.1 hdoes hs)

/-- A program has a run if the library does something at each of its calls. -/
theorem Every.exists_runs {P : I.Call → Prop} {p : Prog I α} (hp : p.Every P)
    (hcall : ∀ c s, P c → ∃ r s', does c s r s') (s : σ) : ∃ t a s', p.Runs does s t a s' := by
  induction p generalizing s with
  | ret a => exact ⟨[], a, s, rfl, rfl, rfl⟩
  | call c k ih =>
      obtain ⟨r, s₁, hdoes⟩ := hcall c s hp.1
      obtain ⟨t, a, s', hrun⟩ := ih r (hp.2 r) s₁
      exact ⟨⟨s, c, r, s₁⟩ :: t, a, s', r, s₁, t, hdoes, rfl, hrun⟩

/-! ## By a script -/

/-- Run the program while the library does at each call what the script says. -/
def play (lib : ι → (c : I.Call) → σ → Option (I.Reply c × σ)) :
    List ι → Prog I α → σ → Option (List (Issued I σ) × α × σ)
  | _, .ret a, s => some ([], a, s)
  | [], .call _ _, _ => none
  | x :: xs, .call c k, s =>
    match lib x c s with
    | none => none
    | some (r, s₁) => (play lib xs (k r) s₁).map fun out => (⟨s, c, r, s₁⟩ :: out.1, out.2)

/-- What is played is a run. -/
theorem runs_of_play {lib : ι → (c : I.Call) → σ → Option (I.Reply c × σ)} {xs : List ι} {p : Prog I α}
    {a : α} {s s' : σ} {t : List (Issued I σ)} (h : play lib xs p s = some (t, a, s')) :
    p.Runs (fun c s r s' => ∃ x, lib x c s = some (r, s')) s t a s' := by
  induction p generalizing xs s t with
  | ret b =>
      rw [play] at h
      obtain ⟨rfl, rfl, rfl⟩ := h
      exact ⟨rfl, rfl, rfl⟩
  | call c k ih =>
      cases xs with
      | nil => cases h
      | cons x xs =>
          rw [play] at h
          split at h
          · cases h
          next r s₁ hlib =>
            obtain ⟨⟨t', _, _⟩, hplay, heq⟩ := Option.map_eq_some_iff.mp h
            cases heq
            exact ⟨r, s₁, t', ⟨x, hlib⟩, rfl, ih r hplay⟩

/-- A script to which a test is applied. -/
theorem exists_runs {lib : ι → (c : I.Call) → σ → Option (I.Reply c × σ)} {xs : List ι} {p : Prog I α}
    {s : σ} {q : List (Issued I σ) × α × σ → Bool} (h : (play lib xs p s).any q = true) :
    ∃ t a s', p.Runs (fun c s r s' => ∃ x, lib x c s = some (r, s')) s t a s' ∧ q (t, a, s') = true := by
  obtain ⟨⟨t, a, s'⟩, hplay, hq⟩ := (Option.any_eq_true _ _).mp h
  exact ⟨t, a, s', runs_of_play hplay, hq⟩

/-! ## Against fixed answers -/

/-- Every call that the program makes while `h` answers satisfies `P`. -/
def EveryMade (h : ∀ c, I.Reply c) (P : I.Call → Prop) : Prog I α → Prop
  | .ret _ => True
  | .call c k => P c ∧ (k (h c)).EveryMade h P

theorem everyMade_bind {h : ∀ c, I.Reply c} {P : I.Call → Prop} {p : Prog I α} {f : α → Prog I β} :
    (p >>= f).EveryMade h P ↔ p.EveryMade h P ∧ (f (p.eval h)).EveryMade h P := by
  induction p with
  | ret a => exact (and_iff_right trivial).symm
  | call c k ih => exact (and_congr_right fun _ => ih (h c)).trans and_assoc.symm

theorem Every.everyMade {h : ∀ c, I.Reply c} {P : I.Call → Prop} {p : Prog I α} (hp : p.Every P) :
    p.EveryMade h P := by
  induction p with
  | ret a => trivial
  | call c k ih => exact ⟨hp.1, ih (h c) (hp.2 (h c))⟩

theorem everyMade_lift {J : Interface} (φ : Embedding I J) (h : ∀ c, J.Reply c) {P : J.Call → Prop}
    (p : Prog I α) : (p.lift φ).EveryMade h P ↔
      p.EveryMade (fun c => φ.reply c (h (φ.call c))) fun c => P (φ.call c) := by
  induction p with
  | ret a => exact Iff.rfl
  | call c k ih => exact and_congr_right fun _ => ih _

/-- The calls that the program makes while `h` answers. -/
def made (h : ∀ c, I.Reply c) : Prog I α → List I.Call
  | .ret _ => []
  | .call c k => c :: (k (h c)).made h

theorem made_bind {h : ∀ c, I.Reply c} (p : Prog I α) (f : α → Prog I β) :
    (p >>= f).made h = p.made h ++ (f (p.eval h)).made h := by
  induction p with
  | ret a => rfl
  | call c k ih => exact congrArg (c :: ·) (ih (h c))

theorem Every.forall_mem_made {h : ∀ c, I.Reply c} {P : I.Call → Prop} {p : Prog I α} (hp : p.Every P) :
    ∀ c ∈ p.made h, P c := by
  induction p with
  | ret a => exact List.forall_mem_nil _
  | call c k ih => exact List.forall_mem_cons.mpr ⟨hp.1, ih (h c) (hp.2 (h c))⟩

end Prog

namespace Throwing

variable {I : Interface} {ε α β : Type} {h : ∀ c, I.Reply c} {P : I.Call → Prop}

/-- Every call that `x` makes while `h` answers satisfies `P`. -/
def EveryMade (h : ∀ c, I.Reply c) (P : I.Call → Prop) (x : Throwing I ε α) : Prop :=
  Prog.EveryMade h P (ExceptT.run x)

theorem everyMade_bind {x : Throwing I ε α} {f : α → Throwing I ε β} :
    EveryMade h P (x >>= f) ↔ EveryMade h P x ∧ ∀ a, eval h x = .ok a → EveryMade h P (f a) := by
  refine Prog.everyMade_bind.trans (and_congr_right fun _ => ?_)
  show Prog.EveryMade h P (match eval h x with
    | .ok a => ExceptT.run (f a)
    | .error e => pure (.error e)) ↔ _
  cases eval h x with
  | error e =>
      refine iff_of_true trivial ?_
      intro a ha
      cases ha
  | ok a =>
      constructor
      · intro hmade b hb
        obtain rfl := Except.ok.inj hb
        exact hmade
      · intro hall
        exact hall a rfl

/-- Sequencing after a computation that returns. -/
theorem everyMade_bind_ok {x : Throwing I ε α} {f : α → Throwing I ε β} {a : α}
    (hx : EveryMade h P x) (ha : eval h x = .ok a) : EveryMade h P (x >>= f) ↔ EveryMade h P (f a) := by
  rw [everyMade_bind, and_iff_right hx]
  constructor
  · intro hall
    exact hall a ha
  · intro hmade b hb
    obtain rfl := Except.ok.inj (ha.symm.trans hb)
    exact hmade

theorem Every.everyMade {x : Throwing I ε α} (hx : Every P x) : EveryMade h P x := Prog.Every.everyMade hx

/-- What follows makes such calls only, whatever the replies. -/
theorem everyMade_bind_every {x : Throwing I ε α} {f : α → Throwing I ε β} (hf : ∀ a, Every P (f a)) :
    EveryMade h P (x >>= f) ↔ EveryMade h P x :=
  everyMade_bind.trans (and_iff_left fun a _ => (hf a).everyMade)

theorem everyMade_lift {J : Interface} (φ : Embedding I J) {lib : ∀ c, J.Reply c} {Q : J.Call → Prop}
    (x : Throwing I ε α) : EveryMade lib Q (lift φ x) ↔
      EveryMade (fun c => φ.reply c (lib (φ.call c))) (fun c => Q (φ.call c)) x :=
  Prog.everyMade_lift φ lib (ExceptT.run x)

/-! ### What is kept of the calls -/

/-- While `h` answers `x` ends with `r`, and this is what `keep` keeps of its calls. -/
def Ends {γ : Type} (h : ∀ c, I.Reply c) (keep : I.Call → Option γ) (x : Throwing I ε α) (r : Except ε α)
    (kept : List γ) : Prop :=
  eval h x = r ∧ (Prog.made h (ExceptT.run x)).filterMap keep = kept

section Ends

variable {γ : Type} {keep : I.Call → Option γ}

theorem ends_ofExcept_ok {r : Except ε α} {a : α} (hr : r = .ok a) :
    Ends h keep (ofExcept r) (.ok a) [] := ⟨hr, rfl⟩

theorem ends_pure (a : α) : Ends h keep (pure a : Throwing I ε α) (.ok a) [] := ⟨rfl, rfl⟩

/-- Of these calls nothing is kept. -/
theorem Every.ends {x : Throwing I ε α} (hx : Every (fun c => keep c = none) x) {r : Except ε α}
    (hr : eval h x = r) : Ends h keep x r [] :=
  ⟨hr, List.filterMap_eq_nil_iff.mpr (Prog.Every.forall_mem_made hx)⟩

/-- The calls of a sequence are those of its first part and, without an exception, those of the second. -/
theorem made_run_bind (x : Throwing I ε α) (f : α → Throwing I ε β) :
    Prog.made h (ExceptT.run (x >>= f)) = Prog.made h (ExceptT.run x) ++
      match eval h x with
      | .ok a => Prog.made h (ExceptT.run (f a))
      | .error _ => [] := by
  refine (Prog.made_bind _ _).trans (congrArg _ ?_)
  show Prog.made h (match eval h x with
    | .ok a => ExceptT.run (f a)
    | .error e => pure (.error e)) = _
  cases eval h x <;> rfl

theorem Ends.bind {x : Throwing I ε α} {f : α → Throwing I ε β} {a : α} {r : Except ε β}
    {kept kept' : List γ} (hx : Ends h keep x (.ok a) kept) (hf : Ends h keep (f a) r kept') :
    Ends h keep (x >>= f) r (kept ++ kept') := by
  refine ⟨?_, ?_⟩
  · rw [eval_bind, hx.1]
    exact hf.1
  · rw [made_run_bind, hx.1, List.filterMap_append, hx.2, hf.2]

end Ends

end Throwing

end Skunk.Effect
