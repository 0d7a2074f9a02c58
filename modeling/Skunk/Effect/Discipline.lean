import Skunk.Effect.Interleave

/-!
# A discipline that each client keeps by itself

`Holds` walks through a program together with the world. Often a client keeps to rules that mention
nothing but its own calls and their replies: it writes only to what it has made, it asks for no lock
twice. Such rules are a `Discipline`: what a client has *in hand* is computed from its calls, and it
tells which call may come next.

That a program keeps a discipline (`Follows`) is shown without the other clients. What then holds of
the world, together with what all clients have in hand, is shown for one call, whatever the programs
are (`Disciplined`), and so for every run (`Disciplined.run`).
-/

namespace Skunk.Effect

/-- What a client has in hand when it begins an operation and after each call, seen with the world
before the call; which calls it may make; and which replies it reckons with. -/
structure Discipline (I : Interface) (σ H Op : Type) where
  started : Op → H → H
  next : H → σ → (c : I.Call) → I.Reply c → H
  ok : H → I.Call → Prop
  expects : H → (c : I.Call) → I.Reply c → Prop

namespace Discipline

variable {I : Interface} {σ H S Op α β : Type} (d : Discipline I σ H Op)

/-- From `h` on, the program makes only calls that it may make, and when it returns, `Q` holds. -/
def Follows (Q : α → H → Prop) : Prog I α → H → Prop
  | .ret a, h => Q a h
  | .call c k, h => d.ok h c ∧ ∀ w r, d.expects h c r → Follows Q (k r) (d.next h w c r)

variable {d}

@[simp] theorem follows_ret {Q : α → H → Prop} {a : α} {h : H} :
    d.Follows Q (.ret a) h ↔ Q a h := Iff.rfl

theorem Follows.mono {Q Q' : α → H → Prop} {p : Prog I α} {h : H} (hp : d.Follows Q p h)
    (himp : ∀ a h', Q a h' → Q' a h') : d.Follows Q' p h := by
  induction p generalizing h with
  | ret a => exact himp a h hp
  | call c k ih => exact ⟨hp.1, fun w r hr => ih r (hp.2 w r hr)⟩

/-- One program after another. -/
theorem Follows.bind {Q : β → H → Prop} {P : α → H → Prop} {p : Prog I α} {f : α → Prog I β} {h : H}
    (hp : d.Follows P p h) (hf : ∀ a h', P a h' → d.Follows Q (f a) h') : d.Follows Q (p >>= f) h := by
  induction p generalizing h with
  | ret a => exact hf a h hp
  | call c k ih => exact ⟨hp.1, fun w r hr => ih r (hp.2 w r hr)⟩

/-! ## What all clients have in hand -/

variable (d)

/-- What the clients have in hand after one more event. -/
def see (w : σ) : Event I Op → (Nat → H) → Nat → H
  | .begun i op, hs => Function.update hs i (d.started op (hs i))
  | .called i c r, hs => Function.update hs i (d.next (hs i) w c r)
  | .drifted, hs => hs

/-- What the clients have in hand after a run. -/
def hands : Config I σ S → List (Event I Op × Config I σ S) → (Nat → H) → Nat → H
  | _, [], hs => hs
  | a, (e, b) :: steps, hs => hands b steps (d.see a.world e hs)

@[simp] theorem hands_nil (a : Config I σ S) (hs : Nat → H) : d.hands a [] hs = hs := rfl

@[simp] theorem hands_cons (a b : Config I σ S) (e : Event I Op) (steps) (hs : Nat → H) :
    d.hands a ((e, b) :: steps) hs = d.hands b steps (d.see a.world e hs) := rfl

theorem hands_append (a : Config I σ S) (front rest : List (Event I Op × Config I σ S)) (hs : Nat → H) :
    d.hands a (front ++ rest) hs = d.hands (System.last a front) rest (d.hands a front hs) := by
  induction front generalizing a hs with
  | nil => rfl
  | cons step front ih =>
      obtain ⟨e, b⟩ := step
      exact ih b (d.see a.world e hs)

end Discipline

open Discipline

variable {I : Interface} {σ H S Op : Type}

/-- Every operation follows the discipline, and one call that it allows keeps what is `sound`:
`idle s h` is what a client that is not busy and keeps the data `s` has in hand. -/
structure Disciplined (sys : System I σ S Op) (d : Discipline I σ H Op)
    (sound : σ → (Nat → H) → Prop) (idle : S → H → Prop) : Prop where
  start : ∀ {s h op}, sys.may op → idle s h → d.Follows idle (sys.start op s) (d.started op h)
  begun : ∀ {w hs i op}, sys.may op → sound w hs →
    sound w (Function.update hs i (d.started op (hs i)))
  called : ∀ {w w' hs i c r}, sound w hs → d.ok (hs i) c → sys.exec i c w = some (r, w') →
    sys.admits i c w r → d.expects (hs i) c r ∧ sound w' (Function.update hs i (d.next (hs i) w c r))
  drifted : ∀ {w w' hs}, sound w hs → sys.drift w w' → sound w' hs

/-- What a client has in hand goes with what it is doing. -/
def Task.Keeps (d : Discipline I σ H Op) (idle : S → H → Prop) (h : H) : Task I S → Prop
  | .idle s => idle s h
  | .busy c k => d.Follows idle (.call c k) h

/-- What holds of a configuration and of what the clients have in hand. -/
structure Config.Orderly (d : Discipline I σ H Op) (sound : σ → (Nat → H) → Prop)
    (idle : S → H → Prop) (a : Config I σ S) (hs : Nat → H) : Prop where
  sound : sound a.world hs
  keeps : ∀ i, (a.tasks i).Keeps d idle (hs i)

section Runs

variable {sys : System I σ S Op} {d : Discipline I σ H Op} {sound : σ → (Nat → H) → Prop}
  {idle : S → H → Prop} {a b : Config I σ S} {hs : Nat → H}

theorem Task.Keeps.of_follows {p : Prog I S} {h : H} (hp : d.Follows idle p h) :
    (Task.of p).Keeps d idle h := by
  cases p with
  | ret s => exact hp
  | call c k => exact hp

/-- The call that a client is about to make is one that it may make. -/
theorem Config.Orderly.ok (h : a.Orderly d sound idle hs) {i : Nat} {c : I.Call}
    {k : I.Reply c → Prog I S} (htask : a.tasks i = .busy c k) :
    d.ok (hs i) c ∧ ∀ w r, d.expects (hs i) c r → d.Follows idle (k r) (d.next (hs i) w c r) := by
  have hkeeps := h.keeps i
  rw [htask] at hkeeps
  exact hkeeps

theorem Config.Orderly.at_rest (h : a.Orderly d sound idle hs) {i : Nat} {s : S}
    (htask : a.tasks i = .idle s) : idle s (hs i) := by
  have hkeeps := h.keeps i
  rw [htask] at hkeeps
  exact hkeeps

/-- One client goes on, and the others have in hand what they had. -/
theorem keeps_update {i : Nat} {h : H} {p : Prog I S} (hkeeps : ∀ j, (a.tasks j).Keeps d idle (hs j))
    (hp : d.Follows idle p h) (j : Nat) :
    (Function.update a.tasks i (.of p) j).Keeps d idle (Function.update hs i h j) := by
  by_cases hj : j = i
  · subst hj
    rw [Function.update_self, Function.update_self]
    exact .of_follows hp
  · rw [Function.update_of_ne hj, Function.update_of_ne hj]
    exact hkeeps j

/-- Every step of every client keeps the order. -/
theorem Disciplined.step (hd : Disciplined sys d sound idle) {e : Event I Op}
    (h : a.Orderly d sound idle hs) (hstep : sys.Step a e b) :
    b.Orderly d sound idle (d.see a.world e hs) := by
  cases hstep with
  | begun htask hmay =>
      refine ⟨hd.begun hmay h.sound, ?_⟩
      exact keeps_update h.keeps (hd.start hmay (h.at_rest htask))
  | @called i c k r w htask hexec hadm =>
      obtain ⟨hok, hrest⟩ := h.ok htask
      obtain ⟨hexpects, hsound⟩ := hd.called h.sound hok hexec hadm
      exact ⟨hsound, keeps_update h.keeps (hrest a.world r hexpects)⟩
  | drifted hdrift => exact ⟨hd.drifted h.sound hdrift, h.keeps⟩

/-- Every run keeps the order. -/
theorem Disciplined.run (hd : Disciplined sys d sound idle) {steps : List (Event I Op × Config I σ S)}
    (h : a.Orderly d sound idle hs) (hrun : sys.Run a steps) :
    (System.last a steps).Orderly d sound idle (d.hands a steps hs) := by
  induction steps generalizing a hs with
  | nil => exact h
  | cons step steps ih =>
      obtain ⟨e, b⟩ := step
      exact ih (hd.step h hrun.1) hrun.2

/-- What else is kept by the calls that the discipline allows. -/
theorem Disciplined.and (hd : Disciplined sys d sound idle) {more : σ → (Nat → H) → Prop}
    (hbegun : ∀ {w hs i op}, sys.may op → sound w hs → more w hs →
      more w (Function.update hs i (d.started op (hs i))))
    (hcalled : ∀ {w w' hs i c r}, sound w hs → more w hs → d.ok (hs i) c →
      sys.exec i c w = some (r, w') → sys.admits i c w r →
      more w' (Function.update hs i (d.next (hs i) w c r)))
    (hdrifted : ∀ {w w' hs}, sound w hs → more w hs → sys.drift w w' → more w' hs) :
    Disciplined sys d (fun w hs => sound w hs ∧ more w hs) idle where
  start := hd.start
  begun := fun hmay h => ⟨hd.begun hmay h.1, hbegun hmay h.1 h.2⟩
  called := by
    rintro w w' hs i c r ⟨hsound, hmore⟩ hok hexec hadm
    obtain ⟨hexpects, hsound'⟩ := hd.called hsound hok hexec hadm
    exact ⟨hexpects, hsound', hcalled hsound hmore hok hexec hadm⟩
  drifted := fun h hdrift => ⟨hd.drifted h.1 hdrift, hdrifted h.1 h.2 hdrift⟩

/-- With only some of the runs, nothing is lost. -/
theorem Disciplined.restrict (hd : Disciplined sys d sound idle)
    (cond : Nat → (c : I.Call) → σ → I.Reply c → Prop) : Disciplined (sys.restrict cond) d sound idle where
  start := hd.start
  begun := hd.begun
  called := fun hsound hok hexec hadm => hd.called hsound hok hexec hadm.1
  drifted := hd.drifted

end Runs

end Skunk.Effect
