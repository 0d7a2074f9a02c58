import Skunk.BesUtils.CacheLayout
import Skunk.Effect.Interleave

/-!
# How clients share a cache

What the clients of a cache owe to each other. Whoever holds the exclusive lock on `cache_info` may
create and remove files and change the recorded size; the others meanwhile only write to the files of
their `PutItem`s, which are *pending*: they are in the directory, but their sizes are not recorded yet.
The ghost component names the client that holds the lock and the pending files.

Outside the locked sections the recorded size is the size of all files that are not pending
(`Books.balance`). Inside, the client that holds the lock knows how far the two are apart.
-/

namespace Skunk.BesUtils

open Effect Posix

/-- How a cache is used: which directory, whether the clients are threads that share one object and so
one descriptor for `cache_info`, whether the sizes are accounted for, whether the cache has been
initialised before, and whether there are `PutItem`s. Where the sizes are not accounted for, the keys may
be any strings, `clear` may be called and writes may fail. A cache that has been initialised before has no
folders in its directory. -/
structure Usage where
  dir : Text
  shared : Option Nat
  accounts : Bool
  prepared : Bool
  lends : Bool
  noNul : '\x00' ∉ dir

/-- A file of a live `PutItem`, whose size is not recorded yet. -/
structure Pending where
  client : Nat
  fd : Nat
  ino : Nat

/-- What the kernel does not record: the client in the locked section, with its descriptor for
`cache_info`, and the pending files. -/
structure Ghost where
  holder : Option (Nat × Nat)
  pending : List Pending

abbrev View : Type := Kernel × Ghost

namespace Usage

variable (u : Usage)

/-- The cache directory. -/
def home : List Text := resolve u.dir

def infoLoc : List Text := u.home ++ [cacheInfoName]

/-- The file is `cache_info`. -/
def IsInfo (K : Kernel) (ino : Nat) : Prop := IsInfoFile u.dir K ino

/-- What a file counts for, when pending files do not. -/
def weight (s : View) (e : List Text × Nat) : Nat :=
  if IsItem u.home e.1 ∧ ∀ c ∈ s.2.pending, c.ino ≠ e.2 then (s.1.data e.2).length else 0

/-- The total size of the items that are not pending. -/
def counted (s : View) : Nat := (s.1.files.map (u.weight s)).sum

def recorded (s : View) : Nat := recordedSize u.home s.1

/-- What is true of the sizes between any two calls. -/
structure Books (s : View) : Prop where
  noFolder : u.prepared = true → ∀ n ino, (u.home ++ [n], ino) ∉ s.1.folders
  claim : ∀ c ∈ s.2.pending, ∃ o n, s.1.opened c.fd = some o ∧ o.opener = c.client ∧
    u.shared ≠ some c.fd ∧ o.ino = c.ino ∧ o.lock = some .exclusive ∧
    (u.home ++ [n], c.ino) ∈ s.1.files ∧ n ≠ cacheInfoName
  distinct : (s.2.pending.map Pending.ino).Nodup
  small : itemBytes u.home s.1 < 2 ^ 64
  balance : s.2.holder = none → u.recorded s = u.counted s

/-- What always holds. A lock on `cache_info` is held by the client in the section. -/
structure Inv (s : View) : Prop where
  wf : s.1.Wf
  locked : ∀ fd o, s.1.opened fd = some o → u.IsInfo s.1 o.ino → o.lock ≠ none →
    ∃ j, s.2.holder = some (j, fd)
  holds : ∀ j f, s.2.holder = some (j, f) → ∃ o, s.1.opened f = some o ∧ u.IsInfo s.1 o.ino ∧
    o.lock = some .exclusive ∧ (u.shared = some f ∨ u.shared = none ∧ o.opener = j)
  books : u.accounts = true → u.Books s
  unused : u.accounts = false ∨ u.lends = false → s.2.pending = []

/-- The same files, with the same recorded size and the same contents, but for what is pending. -/
structure Steady (s s' : View) : Prop where
  files : s'.1.files.Perm s.1.files
  folders : ∀ e ∈ s.1.folders, e ∈ s'.1.folders
  pending : s'.2.pending = s.2.pending
  recorded : u.accounts = true → u.recorded s' = u.recorded s
  data : u.accounts = true → ∀ e ∈ s.1.files, IsItem u.home e.1 →
    (∀ c ∈ s.2.pending, c.ino ≠ e.2) → s'.1.data e.2 = s.1.data e.2

/-- What nobody touches while another client is in its section. -/
structure Calm (s s' : View) : Prop extends u.Steady s s' where
  others : ∀ fd o', s'.1.opened fd = some o' → ¬ u.IsInfo s'.1 o'.ino →
    ∃ o, s.1.opened fd = some o ∧ o.ino = o'.ino

/-- What client `i` may rely on, whatever the others do. -/
structure Rely (i : Nat) (s s' : View) : Prop where
  own : ∀ fd o, s.1.opened fd = some o → o.opener = i → u.shared ≠ some fd →
    s'.1.opened fd = some o
  shared : ∀ fd o, u.shared = some fd → s.1.opened fd = some o →
    ∃ o', s'.1.opened fd = some o' ∧ o'.ino = o.ino
  info : ∀ ino, u.IsInfo s.1 ino → u.IsInfo s'.1 ino
  inside : ∀ f, s'.2.holder = some (i, f) ↔ s.2.holder = some (i, f)
  claims : ∀ c : Pending, c.client = i → (c ∈ s'.2.pending ↔ c ∈ s.2.pending)
  claimed : u.accounts = true → ∀ c ∈ s.2.pending, c.client = i → s'.1.data c.ino = s.1.data c.ino
  still : ∀ f, s.2.holder = some (i, f) → s'.1.opened f = s.1.opened f ∧ u.Calm s s'

def OnInfo (K : Kernel) (fd : Nat) : Prop := ∃ o, K.opened fd = some o ∧ u.IsInfo K o.ino

/-- What must hold for a call to be made. A request for a lock that would wait is either for the lock of
the cache, by a client outside the section, or is granted at once. -/
def Safe (i : Nat) : SysCall → View → Prop
  | .flock fd mode false, s =>
    (u.OnInfo s.1 fd → (∀ f, s.2.holder ≠ some (i, f)) ∧ (u.shared = none ∨ u.shared = some fd)) ∧
    (¬ u.OnInfo s.1 fd → s.1.exec i (.flock fd mode false) ≠ none)
  | .subtract a b, s => u.accounts = true → a = u.recorded s ∧ b ≤ a
  | _, _ => True

/-- Who is in the section after a call. -/
def Mark (i : Nat) : (c : SysCall) → c.Reply → View → View → Prop
  | .flock fd mode nonblock, r, s, s' =>
    s'.2.holder = s.2.holder ∧ ¬ (u.OnInfo s.1 fd ∧ r = true) ∨
    u.OnInfo s.1 fd ∧ r = true ∧ mode = .exclusive ∧ nonblock = false ∧ s.2.holder = none ∧
      s'.2.holder = some (i, fd)
  | .unlock fd, _, s, s' => s.2.holder = some (i, fd) ∧ s'.2.holder = none
  | _, _, s, s' => s'.2.holder = s.2.holder

/-- The calls of a run that is looked at. Where the sizes are accounted for, writes succeed, and while
the cache is being initialised `cache_info` is only written without its lock as long as the recorded size
is zero. Where a descriptor is shared, its lock is not asked for while it is held. -/
def Tidy (_ : Nat) : (c : SysCall) → Kernel → c.Reply → Prop
  | .write fd bytes, K, r => u.accounts = true → r = some bytes.length ∧
    (u.prepared = false → ∀ o, K.opened fd = some o → u.IsInfo K o.ino → o.lock = none →
      recordedSize u.home K = 0)
  | .flock fd _ _, K, _ => u.shared = some fd → ∀ o, K.opened fd = some o → o.lock = none
  | _, _, _ => True

variable {u}

theorem Steady.refl (s : View) : u.Steady s s where
  files := List.Perm.refl _
  folders := fun _ h => h
  pending := rfl
  recorded := fun _ => rfl
  data := fun _ _ _ _ _ => rfl

theorem Steady.isInfo {s s' : View} (h : u.Steady s s') (ino : Nat) :
    u.IsInfo s'.1 ino ↔ u.IsInfo s.1 ino := h.files.mem_iff

theorem Steady.trans {s s' s'' : View} (h : u.Steady s s') (h' : u.Steady s' s'') :
    u.Steady s s'' where
  files := h'.files.trans h.files
  folders := fun e he => h'.folders e (h.folders e he)
  pending := h'.pending.trans h.pending
  recorded := fun hacc => (h'.recorded hacc).trans (h.recorded hacc)
  data := by
    intro hacc e he hitem hfree
    have hfree' : ∀ c ∈ s'.2.pending, c.ino ≠ e.2 := by rwa [h.pending]
    rw [h'.data hacc e (h.files.mem_iff.mpr he) hitem hfree', h.data hacc e he hitem hfree]

theorem Calm.refl (s : View) : u.Calm s s where
  toSteady := .refl s
  others := fun _ o' ho' _ => ⟨o', ho', rfl⟩

theorem Calm.trans {s s' s'' : View} (h : u.Calm s s') (h' : u.Calm s' s'') : u.Calm s s'' where
  toSteady := h.toSteady.trans h'.toSteady
  others := by
    intro fd o'' ho'' hinfo
    obtain ⟨o', ho', hino'⟩ := h'.others fd o'' ho'' hinfo
    have hinfo' : ¬ u.IsInfo s'.1 o'.ino := by rwa [hino', ← h'.isInfo]
    obtain ⟨o, ho, hino⟩ := h.others fd o' ho' hinfo'
    exact ⟨o, ho, hino.trans hino'⟩

theorem Rely.refl (i : Nat) (s : View) : u.Rely i s s where
  own := fun _ _ ho _ _ => ho
  shared := fun _ o _ ho => ⟨o, ho, rfl⟩
  info := fun _ h => h
  inside := fun _ => Iff.rfl
  claims := fun _ _ => Iff.rfl
  claimed := fun _ _ _ _ => rfl
  still := fun _ _ => ⟨rfl, Calm.refl s⟩

theorem Rely.trans {i : Nat} {s s' s'' : View} (h : u.Rely i s s') (h' : u.Rely i s' s'') :
    u.Rely i s s'' where
  own := fun fd o ho hi hsh => h'.own fd o (h.own fd o ho hi hsh) hi hsh
  shared := by
    intro fd o hsh ho
    obtain ⟨o', ho', hino'⟩ := h.shared fd o hsh ho
    obtain ⟨o'', ho'', hino''⟩ := h'.shared fd o' hsh ho'
    exact ⟨o'', ho'', hino''.trans hino'⟩
  info := fun ino hinfo => h'.info ino (h.info ino hinfo)
  inside := fun f => (h'.inside f).trans (h.inside f)
  claims := fun c hc => (h'.claims c hc).trans (h.claims c hc)
  claimed := by
    intro hacc c hc hi
    rw [h'.claimed hacc c ((h.claims c hi).mpr hc) hi, h.claimed hacc c hc hi]
  still := by
    intro f hf
    obtain ⟨hopen, hcalm⟩ := h.still f hf
    obtain ⟨hopen', hcalm'⟩ := h'.still f ((h.inside f).mpr hf)
    exact ⟨hopen'.trans hopen, hcalm.trans hcalm'⟩

/-- The protocol of a cache. -/
def protocol (u : Usage) : Protocol sysCalls Kernel Ghost where
  inv := u.Inv
  rely := u.Rely
  safe := u.Safe
  mark := u.Mark
  rely_refl := Rely.refl
  rely_trans := Rely.trans

/-- The clients of a cache; `may` tells which operations they use. -/
def clients (may : CacheOp → Prop) : System sysCalls Kernel Session CacheOp where
  exec := Kernel.exec
  drift := Kernel.Drift
  start := CacheOp.run
  may := may
  admits := fun _ _ _ _ => True

instance (may : CacheOp → Prop) [DecidablePred may] : ∀ op, Decidable ((clients may).may op) :=
  inferInstanceAs (DecidablePred may)

instance (may : CacheOp → Prop) : ∀ i c w r, Decidable ((clients may).admits i c w r) :=
  fun _ _ _ _ => instDecidableTrue

/-- The clients of a cache, with the runs that are looked at. -/
def system (u : Usage) (may : CacheOp → Prop) : System sysCalls Kernel Session CacheOp :=
  { clients may with admits := u.Tidy }

/-- A condition that makes the replies tidy makes the clients keep to the protocol. -/
theorem step_of_clients {may : CacheOp → Prop} {cond : Nat → (c : SysCall) → Kernel → c.Reply → Prop}
    (hcond : ∀ i c K r, cond i c K r → u.Tidy i c K r) {a b : Config sysCalls Kernel Session}
    {e : Event sysCalls CacheOp} (h : ((clients may).restrict cond).Step a e b) :
    (u.system may).Step a e b := by
  cases h with
  | begun htask hmay => exact .begun htask hmay
  | called htask hexec hadm => exact .called htask hexec (hcond _ _ _ _ hadm.2)
  | drifted hdrift => exact .drifted hdrift

/-! ## What a call leaves alone -/

/-- A call of client `i` spares the others. -/
structure Spares (u : Usage) (i : Nat) (s s' : View) : Prop where
  own : ∀ fd o, s.1.opened fd = some o → o.opener ≠ i → u.shared ≠ some fd →
    s'.1.opened fd = some o
  shared : ∀ fd o, u.shared = some fd → s.1.opened fd = some o →
    ∃ o', s'.1.opened fd = some o' ∧ o'.ino = o.ino
  info : ∀ ino, u.IsInfo s.1 ino → u.IsInfo s'.1 ino
  claims : ∀ c : Pending, c.client ≠ i → (c ∈ s'.2.pending ↔ c ∈ s.2.pending)
  claimed : u.accounts = true → ∀ c ∈ s.2.pending, c.client ≠ i → s'.1.data c.ino = s.1.data c.ino

theorem Spares.refl (i : Nat) (s : View) : u.Spares i s s where
  own := fun _ _ ho _ _ => ho
  shared := fun _ o _ ho => ⟨o, ho, rfl⟩
  info := fun _ h => h
  claims := fun _ _ => Iff.rfl
  claimed := fun _ _ _ _ => rfl

section Spares

variable {i j : Nat} {s s' : View}

/-- A client that is not in the section relies on no more than being spared. -/
theorem Spares.rely (h : u.Spares i s s') (hj : j ≠ i) (hout : ∀ f, s.2.holder ≠ some (j, f))
    (hout' : ∀ f, s'.2.holder ≠ some (j, f)) : u.Rely j s s' where
  own := fun fd o ho hopener hsh => h.own fd o ho (by rw [hopener]; exact hj) hsh
  shared := h.shared
  info := h.info
  inside := fun f => iff_of_false (hout' f) (hout f)
  claims := fun c hc => h.claims c (by rw [hc]; exact hj)
  claimed := fun hacc c hmem hc => h.claimed hacc c hmem (by rw [hc]; exact hj)
  still := fun f hf => absurd hf (hout f)

/-- A client in the section relies on calm. -/
theorem Spares.rely_of_calm (h : u.Spares i s s') (hj : j ≠ i) (hholder : s'.2.holder = s.2.holder)
    (hcalm : u.Calm s s') (hopened : ∀ f, s.2.holder = some (j, f) → s'.1.opened f = s.1.opened f) :
    u.Rely j s s' where
  own := fun fd o ho hopener hsh => h.own fd o ho (by rw [hopener]; exact hj) hsh
  shared := h.shared
  info := h.info
  inside := fun f => by rw [hholder]
  claims := fun c hc => h.claims c (by rw [hc]; exact hj)
  claimed := fun hacc c hmem hc => h.claimed hacc c hmem (by rw [hc]; exact hj)
  still := fun f hf => ⟨hopened f hf, hcalm⟩

/-- A call of a client in its section only has to spare the others. -/
theorem Spares.rely_of_section (h : u.Spares i s s') {f : Nat} (hin : s.2.holder = some (i, f))
    (hin' : s'.2.holder = some (i, f) ∨ s'.2.holder = none) (hj : j ≠ i) : u.Rely j s s' := by
  refine h.rely hj ?_ ?_
  · intro g hg
    rw [hin] at hg
    exact hj (congrArg Prod.fst (Option.some.inj hg)).symm
  · intro g hg
    rcases hin' with hin' | hin'
    · rw [hin'] at hg
      exact hj (congrArg Prod.fst (Option.some.inj hg)).symm
    · rw [hin'] at hg
      cases hg

end Spares

/-! ### One description changes -/

section Update

variable {i fd : Nat} {s : View} {K' : Kernel} {o' : Option OpenFile}

/-- The kernels differ in one description at most. -/
structure Differs (K K' : Kernel) (fd : Nat) (o' : Option OpenFile) : Prop where
  files : K'.files = K.files
  folders : K'.folders = K.folders
  data : K'.data = K.data
  opened : K'.opened = Function.update K.opened fd o'

theorem Differs.opened_ne (h : Differs s.1 K' fd o') {g : Nat} (hg : g ≠ fd) :
    K'.opened g = s.1.opened g := by
  rw [h.opened, Function.update_of_ne hg]

theorem Differs.opened_self (h : Differs s.1 K' fd o') : K'.opened fd = o' := by
  rw [h.opened, Function.update_self]

theorem Differs.isInfo (h : Differs s.1 K' fd o') (ino : Nat) :
    u.IsInfo K' ino ↔ u.IsInfo s.1 ino := by
  rw [IsInfo, IsInfo, IsInfoFile, IsInfoFile, h.files]

theorem Differs.itemBytes (h : Differs s.1 K' fd o') (home : List Text) :
    itemBytes home K' = itemBytes home s.1 := by
  simp only [Skunk.BesUtils.itemBytes, h.files, h.data]

theorem Differs.recorded (h : Differs s.1 K' fd o') (g : Ghost) :
    u.recorded (K', g) = u.recorded s := by
  simp only [Usage.recorded, recordedSize, h.files, h.data]

theorem Differs.counted (h : Differs s.1 K' fd o') : u.counted (K', s.2) = u.counted s := by
  have hweight : u.weight (K', s.2) = u.weight s := by
    funext e
    simp only [weight, h.data]
  rw [Usage.counted, Usage.counted, hweight, h.files]

/-- Two descriptions that differ in the offset only. -/
def SameFile (o x : OpenFile) : Prop := x.ino = o.ino ∧ x.lock = o.lock ∧ x.opener = o.opener

/-- The invariant survives if a description with a claim or with the lock of the cache keeps its file and
its lock, and no other gets a lock on `cache_info`. -/
theorem Inv.of_differs (h : u.Inv s) (hwf : K'.Wf) (hd : Differs s.1 K' fd o')
    (hlocked : ∀ x, o' = some x → u.IsInfo s.1 x.ino → x.lock ≠ none →
      ∃ j, s.2.holder = some (j, fd))
    (hkeep : (∃ j, s.2.holder = some (j, fd)) ∨
      u.accounts = true ∧ (∃ c ∈ s.2.pending, c.fd = fd) →
      ∀ o, s.1.opened fd = some o → ∃ x, o' = some x ∧ SameFile o x) :
    u.Inv (K', s.2) where
  wf := hwf
  locked := by
    intro g x hx hinfo hlock
    rw [hd.isInfo] at hinfo
    by_cases hg : g = fd
    · subst hg
      rw [hd.opened_self] at hx
      -- the description that is changed; the others are as they were
      exact hlocked x hx hinfo hlock
    · rw [hd.opened_ne hg] at hx
      exact h.locked g x hx hinfo hlock
  holds := by
    intro j f hf
    obtain ⟨o, ho, hinfo, hlock, hopener⟩ := h.holds j f hf
    by_cases hg : f = fd
    · subst hg
      obtain ⟨x, hx, hino, hlock', hopener'⟩ := hkeep (.inl ⟨j, hf⟩) o ho
      refine ⟨x, by rw [hd.opened_self, hx], ?_, by rw [hlock', hlock], ?_⟩
      · rw [hd.isInfo, hino]
        exact hinfo
      · rwa [hopener']
    · exact ⟨o, by rw [hd.opened_ne hg, ho], (hd.isInfo o.ino).mpr hinfo, hlock, hopener⟩
  books := by
    intro hacc
    have hb := h.books hacc
    refine ⟨?_, ?_, hb.distinct, ?_, ?_⟩
    · rw [hd.folders]
      exact hb.noFolder
    · intro c hc
      obtain ⟨o, n, ho, hopener, hsh, hino, hlock, hfile, hn⟩ := hb.claim c hc
      by_cases hg : c.fd = fd
      · subst hg
        obtain ⟨x, hx, hino', hlock', hopener'⟩ := hkeep (.inr ⟨hacc, c, hc, rfl⟩) o ho
        exact ⟨x, n, by rw [hd.opened_self, hx], by rw [hopener', hopener], hsh, by rw [hino', hino],
          by rw [hlock', hlock], by rw [hd.files]; exact hfile, hn⟩
      · exact ⟨o, n, by rw [hd.opened_ne hg, ho], hopener, hsh, hino, hlock,
          by rw [hd.files]; exact hfile, hn⟩
    · rw [hd.itemBytes]
      exact hb.small
    · intro hnone
      rw [hd.recorded, hd.counted]
      exact hb.balance hnone
  unused := h.unused

/-- A change to one of its own descriptors spares all other clients. -/
theorem Spares.of_differs (hd : Differs s.1 K' fd o')
    (hown : ∀ o, s.1.opened fd = some o → o.opener = i ∨ u.shared = some fd)
    (hshared : u.shared = some fd → ∀ o, s.1.opened fd = some o → ∃ x, o' = some x ∧ x.ino = o.ino) :
    u.Spares i s (K', s.2) where
  own := by
    intro g o ho hopener hsh
    by_cases hg : g = fd
    · subst hg
      rcases hown o ho with hi | hsh'
      · exact absurd hi hopener
      · exact absurd hsh' hsh
    · rw [hd.opened_ne hg]
      exact ho
  shared := by
    intro g o hsh ho
    by_cases hg : g = fd
    · subst hg
      obtain ⟨x, hx, hino⟩ := hshared hsh o ho
      exact ⟨x, by rw [hd.opened_self, hx], hino⟩
    · exact ⟨o, by rw [hd.opened_ne hg]; exact ho, rfl⟩
  info := fun ino hino => (hd.isInfo ino).mpr hino
  claims := fun _ _ => Iff.rfl
  claimed := by
    intro _ c _ _
    rw [hd.data]

theorem Steady.of_differs (hd : Differs s.1 K' fd o') : u.Steady s (K', s.2) where
  files := by rw [hd.files]
  folders := by
    rw [hd.folders]
    exact fun _ h => h
  pending := rfl
  recorded := fun _ => hd.recorded s.2
  data := by
    intro _ e _ _ _
    rw [hd.data]

theorem Calm.of_differs (hd : Differs s.1 K' fd o')
    (hino : ∀ x, o' = some x → ¬ u.IsInfo s.1 x.ino → ∃ o, s.1.opened fd = some o ∧ o.ino = x.ino) :
    u.Calm s (K', s.2) where
  toSteady := .of_differs hd
  others := by
    intro g x hx hinfo
    rw [hd.isInfo] at hinfo
    by_cases hg : g = fd
    · subst hg
      rw [hd.opened_self] at hx
      exact hino x hx hinfo
    · rw [hd.opened_ne hg] at hx
      exact ⟨x, hx, rfl⟩

end Update

end Usage

end Skunk.BesUtils
