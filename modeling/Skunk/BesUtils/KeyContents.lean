import Skunk.BesUtils.ItemContents

/-!
# What is under a key

Whoever gets an item gets what the file under the key was when the run began, or what somebody has put
under the same key, from beginning to end (`get_contents`). And what `put` and `put_data` say that they have
put is in a file that nobody changes, and that is the file under the key for as long as nobody removes it
(`put_contents`).
-/

namespace Skunk.BesUtils

open Effect Posix

variable {dir : Text} {K₀ K K' : Kernel} {hs : Nat → Hand} {i : Nat} {h : Hand}

/-! ## What is written down of a run -/

theorem next_op {c : SysCall} {r : c.Reply} : (h.next dir K c r).op = h.op := by
  unfold Hand.next
  repeat' split
  all_goals rfl

theorem next_turn {c : SysCall} {r : c.Reply} : (h.next dir K c r).turn = h.turn := by
  unfold Hand.next
  repeat' split
  all_goals rfl

/-- A file is created for the operation that goes on, and then belongs to it. -/
theorem next_draft {c : SysCall} {r : c.Reply} {q : Draft} (hq : q ∈ (h.next dir K c r).drafts) :
    (∃ path fd, c = .create path ∧ q = ⟨fd, K.nextIno, path, h.op, h.turn, [], 0, .created, false⟩) ∨
      ∃ p ∈ h.drafts, p.ino = q.ino ∧ p.path = q.path ∧ p.op = q.op ∧ p.turn = q.turn := by
  have hsame : q ∈ h.drafts → (∃ path fd, c = .create path ∧
      q = ⟨fd, K.nextIno, path, h.op, h.turn, [], 0, .created, false⟩) ∨
      ∃ p ∈ h.drafts, p.ino = q.ino ∧ p.path = q.path ∧ p.op = q.op ∧ p.turn = q.turn :=
    fun hq => .inr ⟨q, hq, rfl, rfl, rfl, rfl⟩
  have hedit : ∀ (fd : Nat) (g : Draft → Draft),
      (∀ p, (g p).ino = p.ino ∧ (g p).path = p.path ∧ (g p).op = p.op ∧ (g p).turn = p.turn) →
      q ∈ (h.edit fd g).drafts →
      ∃ p ∈ h.drafts, p.ino = q.ino ∧ p.path = q.path ∧ p.op = q.op ∧ p.turn = q.turn := by
    intro fd g hg hq
    obtain ⟨p, hp, rfl⟩ := List.mem_map.mp hq
    refine ⟨p, hp, ?_⟩
    split
    · simp [hg p]
    · simp
  cases c with
  | create path =>
      cases r with
      | none => exact hsame hq
      | some fd =>
          replace hq : q ∈ (if path = infoPath dir then { h with infos := fd :: h.infos }
            else h.drafting ⟨fd, K.nextIno, path, h.op, h.turn, [], 0, .created, false⟩).drafts := hq
          split at hq
          · exact hsame hq
          · rcases List.mem_cons.mp hq with hnew | hq
            · exact .inl ⟨path, fd, rfl, hnew⟩
            · exact hsame hq
  | openWrite path =>
      cases r with
      | none => exact hsame hq
      | some fd =>
          apply hsame
          replace hq : q ∈ (if path = infoPath dir then { h with infos := fd :: h.infos }
            else h.reading ⟨fd, path, h.op⟩).drafts := hq
          split at hq
          · exact hq
          · exact hq
  | openRead path =>
      cases r with
      | none => exact hsame hq
      | some fd => exact hsame hq
  | close fd => exact .inr (hedit fd (fun p => { p with stage := .closed }) (by simp) hq)
  | flock fd mode nonblock =>
      cases r with
      | false => exact hsame hq
      | true =>
          replace hq : q ∈ (if fd ∈ h.infos then { h with inside := some fd }
            else h.edit fd fun p => { p with stage := .locked }).drafts := hq
          split at hq
          · exact hsame hq
          · exact .inr (hedit fd (fun p => { p with stage := .locked }) (by simp) hq)
  | seek fd pos =>
      cases r with
      | false => exact hsame hq
      | true => exact .inr (hedit fd (fun p => { p with offset := pos }) (by simp) hq)
  | write fd bytes =>
      cases r with
      | none => exact .inr (hedit fd (fun p => { p with failed := true }) (by simp) hq)
      | some n =>
          exact .inr (hedit fd (fun p => { p with
            bytes := overwrite p.bytes p.offset bytes
            offset := p.offset + bytes.length }) (by simp) hq)
  | stat | mkdirP | unlock | futimes | read | fstat | remove | readdir | source | subtract =>
      exact hsame hq

/-- A file is opened for the operation that goes on. -/
theorem next_reading {c : SysCall} {r : c.Reply} {x : Reading} (hx : x ∈ (h.next dir K c r).readings) :
    x ∈ h.readings ∨ x.op = h.op ∧ ((⟨c, r⟩ : (c : SysCall) × c.Reply) = ⟨.openRead x.path, some x.fd⟩ ∨
      (⟨c, r⟩ : (c : SysCall) × c.Reply) = ⟨.openWrite x.path, some x.fd⟩) := by
  cases c with
  | openRead path =>
      cases r with
      | none => exact .inl hx
      | some fd =>
          rcases List.mem_cons.mp hx with rfl | hx
          · exact .inr ⟨rfl, .inl rfl⟩
          · exact .inl hx
  | openWrite path =>
      cases r with
      | none => exact .inl hx
      | some fd =>
          replace hx : x ∈ (if path = infoPath dir then { h with infos := fd :: h.infos }
            else h.reading ⟨fd, path, h.op⟩).readings := hx
          split at hx
          · exact .inl hx
          · rcases List.mem_cons.mp hx with rfl | hx
            · exact .inr ⟨rfl, .inr rfl⟩
            · exact .inl hx
  | close fd => exact .inl (List.mem_of_mem_filter hx)
  | create path =>
      cases r with
      | none => exact .inl hx
      | some fd =>
          replace hx : x ∈ (if path = infoPath dir then { h with infos := fd :: h.infos }
            else h.drafting ⟨fd, K.nextIno, path, h.op, h.turn, [], 0, .created, false⟩).readings := hx
          split at hx
          · exact .inl hx
          · exact .inl hx
  | flock fd mode nonblock =>
      cases r with
      | false => exact .inl hx
      | true =>
          replace hx : x ∈ (if fd ∈ h.infos then { h with inside := some fd }
            else h.edit fd fun p => { p with stage := .locked }).readings := hx
          split at hx
          · exact .inl hx
          · exact .inl hx
  | seek | write => cases r <;> exact .inl hx
  | stat | mkdirP | unlock | futimes | read | fstat | remove | readdir | source | subtract => exact .inl hx

theorem next_sources {c : SysCall} {r : c.Reply} {x : Asked} (hx : x ∈ (h.next dir K c r).sources) :
    x ∈ h.sources ∨ x.turn = h.turn ∧ (⟨c, r⟩ : (c : SysCall) × c.Reply) = ⟨.source x.fileName, x.reply⟩ := by
  unfold Hand.next at hx
  split at hx
  case h_10 =>
    rcases List.mem_cons.mp hx with rfl | hx
    · exact .inr ⟨rfl, rfl⟩
    · exact .inl hx
  all_goals
    repeat' split at hx
    all_goals exact .inl hx

abbrev CacheEvent : Type := Event sysCalls CacheOp

/-- What a process has in hand is what its events say. -/
structure Traced (events : List CacheEvent) (i : Nat) (h : Hand) : Prop where
  op : ∀ op, h.op = some op → .begun i op ∈ events
  drafts : ∀ p ∈ h.drafts, ∀ op, p.op = some op → .begun i op ∈ events
  readings : ∀ x ∈ h.readings, ∀ op, x.op = some op → .begun i op ∈ events
  sources : ∀ x ∈ h.sources, .called i (.source x.fileName) x.reply ∈ events
  drafts_turn : ∀ p ∈ h.drafts, p.turn ≤ h.turn
  sources_turn : ∀ x ∈ h.sources, x.turn ≤ h.turn

theorem Traced.mono {events events' : List CacheEvent} (ht : Traced events i h) (hsub : events ⊆ events') :
    Traced events' i h :=
  ⟨fun op hop => hsub (ht.op op hop), fun p hp op hop => hsub (ht.drafts p hp op hop),
    fun x hx op hop => hsub (ht.readings x hx op hop), fun x hx => hsub (ht.sources x hx), ht.drafts_turn,
    ht.sources_turn⟩

theorem traced_see {events : List CacheEvent} (ht : ∀ i, Traced events i (hs i)) (K : Kernel)
    (e : CacheEvent) (j : Nat) : Traced (events ++ [e]) j ((rules dir).see K e hs j) := by
  have hsub : events ⊆ events ++ [e] := List.subset_append_left _ _
  have hlast : e ∈ events ++ [e] := List.mem_append_right _ List.mem_cons_self
  cases e with
  | begun i op =>
      by_cases hj : j = i
      · subst hj
        show Traced _ j (Function.update hs j { hs j with op := some op, turn := (hs j).turn + 1 } j)
        rw [Function.update_self]
        have hold := (ht j).mono hsub
        refine ⟨?_, hold.drafts, hold.readings, hold.sources, fun p hp => Nat.le_succ_of_le (hold.drafts_turn p hp),
          fun x hx => Nat.le_succ_of_le (hold.sources_turn x hx)⟩
        rintro _ ⟨⟩
        exact hlast
      · show Traced _ j (Function.update hs i _ j)
        rw [Function.update_of_ne hj]
        exact (ht j).mono hsub
  | called i c r =>
      by_cases hj : j = i
      · subst hj
        show Traced _ j (Function.update hs j ((hs j).next dir K c r) j)
        rw [Function.update_self]
        have hold := (ht j).mono hsub
        refine ⟨?_, ?_, ?_, ?_, ?_, ?_⟩
        · rw [next_op]
          exact hold.op
        · intro q hq op hop
          rcases next_draft hq with ⟨path, fd, -, rfl⟩ | ⟨p, hp, -, -, hpop, -⟩
          · exact hold.op op hop
          · exact hold.drafts p hp op (hpop.trans hop)
        · intro x hx op hop
          rcases next_reading hx with hmem | ⟨hxop, -⟩
          · exact hold.readings x hmem op hop
          · exact hold.op op (hxop.symm.trans hop)
        · intro x hx
          rcases next_sources hx with hmem | ⟨-, hnew⟩
          · exact hold.sources x hmem
          · obtain ⟨rfl, heq⟩ := Sigma.mk.inj hnew
            obtain rfl := eq_of_heq heq
            exact hlast
        · intro q hq
          rw [next_turn]
          rcases next_draft hq with ⟨path, fd, -, rfl⟩ | ⟨p, hp, -, -, -, hturn⟩
          · exact Nat.le_refl _
          · exact hturn ▸ hold.drafts_turn p hp
        · intro x hx
          rw [next_turn]
          rcases next_sources hx with hmem | ⟨hturn, -⟩
          · exact hold.sources_turn x hmem
          · exact Nat.le_of_eq hturn
      · show Traced _ j (Function.update hs i _ j)
        rw [Function.update_of_ne hj]
        exact (ht j).mono hsub
  | drifted => exact (ht j).mono hsub

/-- What a process has in hand at the end of a run comes from the events of the run. -/
theorem traced_hands (dir : Text) (a : Config sysCalls Kernel Session) {events : List CacheEvent}
    (ht : ∀ i, Traced events i (hs i))
    (steps : List (CacheEvent × Config sysCalls Kernel Session)) (j : Nat) :
    Traced (events ++ steps.map Prod.fst) j ((rules dir).hands a steps hs j) := by
  induction steps generalizing a events hs with
  | nil => simpa using ht j
  | cons step steps ih =>
      obtain ⟨e, b⟩ := step
      rw [Discipline.hands_cons]
      have hseen := @traced_see dir hs events ht a.world e
      have hrest := ih b hseen
      rwa [List.append_assoc] at hrest

/-- What a process has in hand after a run is what it has done in the run. -/
theorem traced_handsAfter (dir : Text) (a : Config sysCalls Kernel Session)
    (steps : List (CacheEvent × Config sysCalls Kernel Session)) (j : Nat) :
    Traced (steps.map Prod.fst) j (handsAfter dir a steps j) := by
  have ht : ∀ i, Traced [] i Hand.new := by
    intro i
    constructor <;> simp [Hand.new]
  exact traced_hands dir a ht steps j

/-- The runs in which everything is written that was to be written, and all that is in the files that are put is
read. -/
def CallsSucceed (_ : Nat) : (c : SysCall) → Kernel → c.Reply → Prop
  | .write _ _, _, r => r ≠ none
  | .source _, _, r => ∃ s ∈ r, s.given = s.contents
  | _, _, _ => True

instance (i : Nat) : (c : SysCall) → (K : Kernel) → (r : c.Reply) → Decidable (CallsSucceed i c K r)
  | .write _ _, _, r => inferInstanceAs (Decidable (r ≠ none))
  | .source _, _, r => inferInstanceAs (Decidable (∃ s ∈ r, s.given = s.contents))
  | .stat _, _, _ | .mkdirP _, _, _ | .create _, _, _ | .openRead _, _, _ | .openWrite _, _, _
  | .close _, _, _ | .flock _ _ _, _, _ | .unlock _, _, _ | .futimes _, _, _ | .seek _ _, _, _
  | .read _ _, _, _ | .fstat _, _, _ | .remove _, _, _ | .readdir _, _, _ | .subtract _ _, _, _ =>
    isTrue trivial

/-- Nothing has failed so far. -/
def Flawless (h : Hand) : Prop :=
  (∀ p ∈ h.drafts, p.failed = false) ∧ ∀ x ∈ h.sources, ∃ s ∈ x.reply, s.given = s.contents

theorem Flawless.called {i : Nat} {c : SysCall} {r : c.Reply} (hf : Flawless h)
    (hsucc : CallsSucceed i c K r) : Flawless (h.next dir K c r) := by
  have hedit : ∀ (fd : Nat) (g : Draft → Draft), (∀ p, (g p).failed = p.failed) →
      Flawless (h.edit fd g) := by
    refine fun fd g hg => ⟨?_, hf.2⟩
    intro q hq
    obtain ⟨p, hp, rfl⟩ := List.mem_map.mp hq
    split
    · rw [hg p]
      exact hf.1 p hp
    · exact hf.1 p hp
  unfold Hand.next
  split
  · split
    · exact hf
    · refine ⟨?_, hf.2⟩
      intro q hq
      rcases List.mem_cons.mp hq with rfl | hq
      · rfl
      · exact hf.1 q hq
  · exact hf
  · split <;> exact hf
  next fd _ =>
    obtain ⟨hdrafts, hsources⟩ := hedit fd (fun p => { p with stage := .closed }) fun _ => rfl
    exact ⟨hdrafts, hsources⟩
  · split
    · exact hf
    · exact hedit _ (fun p => { p with stage := .locked }) fun _ => rfl
  · exact hf
  next fd pos => exact hedit fd (fun p => { p with offset := pos }) fun _ => rfl
  next fd bytes n =>
    exact hedit fd (fun p => { p with
      bytes := overwrite p.bytes p.offset bytes
      offset := p.offset + bytes.length }) fun _ => rfl
  · exact absurd rfl hsucc
  · refine ⟨hf.1, ?_⟩
    intro x hx
    rcases List.mem_cons.mp hx with rfl | hx
    · exact hsucc
    · exact hf.2 x hx
  · exact hf

/-- What is old has kept its name, and whoever has opened something old has opened it by that name. -/
structure Found (K₀ K : Kernel) (hs : Nat → Hand) : Prop where
  entries : ∀ e ∈ K.entries, e.2 < K₀.nextIno → e ∈ K₀.entries
  readings : ∀ i, ∀ x ∈ (hs i).readings, ∀ o, K.opened x.fd = some o → o.ino < K₀.nextIno →
    (resolve x.path, o.ino) ∈ K₀.entries

theorem Found.opened (hfound : Found K₀ K hs) (hwf : K.Wf) (hdir : '\x00' ∉ dir) {path name : Text}
    (hname : IsFileName name) (hpath : path = pathConcat dir name) {n : Nat} (hn : K.inode path = some n)
    (hold : n < K₀.nextIno) : (resolve path, n) ∈ K₀.entries := by
  obtain ⟨loc, hloc, hlook⟩ := Option.bind_eq_some_iff.mp hn
  rw [hpath] at hloc ⊢
  obtain rfl := locate_pathConcat hdir hname hloc
  rw [resolve_pathConcat dir hname]
  exact hfound.entries _ (hwf.lookup_entries.mp hlook) hold

/-- The bytes are what an operation of client `j` had to put under the key: the data, or that part of its source. -/
def Supplies (part : Source → List UInt8) (events : List CacheEvent) (j : Nat) (key : Text) (bytes : List UInt8) :
    CacheOp → Prop
  | .putData k data => k = key ∧ bytes = data
  | .put k fileName => k = key ∧ ∃ s : Source, .called j (.source fileName) (some s) ∈ events ∧ bytes = part s
  | .putItem k => k = key
  | _ => False

/-- The file has been created by client `j`, which has closed it, and the bytes are all that it has
written into it, each write at its place. -/
def Wrote (dir : Text) (a : Config sysCalls Kernel Session)
    (steps : List (CacheEvent × Config sysCalls Kernel Session)) (j ino : Nat) (bytes : List UInt8) : Prop :=
  ∃ p ∈ (handsAfter dir a steps j).drafts, p.ino = ino ∧ p.stage = .closed ∧ p.bytes = bytes

/-- A draft that is exact has what its operation was to put, from the answers of that operation alone. -/
theorem Draft.Exact.supplies {p : Draft} {op : CacheOp} {key : Text} {events : List CacheEvent} {j : Nat}
    {part : Source → List UInt8} (hexact : p.Exact h.sources) (hop : p.op = some op) (hputs : op.puts = some key)
    (hcalled : ∀ x ∈ h.sources, x.turn = p.turn → .called j (.source x.fileName) x.reply ∈ events)
    (hpart : ∀ x ∈ h.sources, ∀ s ∈ x.reply, s.given = part s) : Supplies part events j key p.bytes op := by
  rw [Draft.Exact, hop] at hexact
  cases op with
  | put k fileName =>
      obtain ⟨s, hmem, hbytes⟩ := hexact
      exact ⟨Option.some.inj hputs, s, hcalled _ hmem rfl, hbytes.trans (hpart _ hmem s rfl)⟩
  | putData k data => exact ⟨Option.some.inj hputs, hexact⟩
  | putItem k => exact Option.some.inj hputs
  | _ => cases hputs

theorem Draft.Whole.exact {p : Draft} (hwhole : p.Whole h.sources) (hf : Flawless h) (hp : p ∈ h.drafts) :
    p.Exact h.sources := by
  rcases hwhole with hexact | hfailed | ⟨key, fileName, -, hnone⟩
  · exact hexact
  · rw [hf.1 p hp] at hfailed
    cases hfailed
  · obtain ⟨s, hs, -⟩ := hf.2 _ hnone
    cases hs

section Runs

variable {a : Config sysCalls Kernel Session} {steps : List (CacheEvent × Config sysCalls Kernel Session)}

end Runs

/-! ## What is there -/

/-- The runs in which nobody removes the file `ino`. -/
def Spares (ino : Nat) (_ : Nat) : (c : SysCall) → Kernel → c.Reply → Prop
  | .remove path, K, r => r = true → K.files.lookup (resolve path) ≠ some ino
  | _, _, _ => True

instance (ino i : Nat) : (c : SysCall) → (K : Kernel) → (r : c.Reply) → Decidable (Spares ino i c K r)
  | .remove path, K, r => inferInstanceAs (Decidable (r = true → K.files.lookup (resolve path) ≠ some ino))
  | .stat _, _, _ | .mkdirP _, _, _ | .create _, _, _ | .openRead _, _, _ | .openWrite _, _, _
  | .close _, _, _ | .flock _ _ _, _, _ | .unlock _, _, _ | .futimes _, _, _ | .seek _ _, _, _
  | .read _ _, _, _ | .write _ _, _, _ | .fstat _, _, _ | .readdir _, _, _ | .source _, _, _
  | .subtract _ _, _, _ => isTrue trivial

/-- A file that nobody removes stays. -/
theorem mem_files_of_exec (hdir : '\x00' ∉ dir) (hwf : K.Wf) {c : SysCall} {r : c.Reply} (hok : h.Ok dir c)
    (hexec : Kernel.exec i c K = some (r, K')) {ino : Nat} (hspared : Spares ino i c K r) {loc : List Text}
    (hmem : (loc, ino) ∈ K.files) : (loc, ino) ∈ K'.files := by
  cases c with
  | stat | fstat | readdir | source | subtract | close =>
      obtain ⟨-, rfl⟩ := Prod.mk.inj (Option.some.inj hexec)
      exact hmem
  | mkdirP path =>
      obtain ⟨-, rfl⟩ := Prod.mk.inj (Option.some.inj hexec)
      rwa [(Usage.grows_makeFolders K [] (pieces (cStr path))).files]
  | create path =>
      rcases Kernel.exec_create hexec with ⟨-, rfl⟩ | ⟨loc, -, -, -, rfl⟩
      · exact hmem
      · exact List.mem_cons_of_mem _ hmem
  | openRead path =>
      rcases Kernel.exec_openRead hexec with ⟨-, -, rfl⟩ | ⟨n, -, -, rfl⟩
      · exact hmem
      · exact hmem
  | openWrite path =>
      rcases Kernel.exec_openWrite hexec with ⟨-, -, rfl⟩ | ⟨n, -, -, rfl⟩
      · exact hmem
      · exact hmem
  | flock | unlock | futimes | seek | read =>
      rw [Kernel.exec] at hexec
      repeat' split at hexec
      all_goals cases hexec
      all_goals exact hmem
  | write fd bytes =>
      cases ho : K.opened fd with
      | none =>
          rw [Kernel.exec, ho] at hexec
          obtain ⟨-, rfl⟩ := Prod.mk.inj (Option.some.inj hexec)
          exact hmem
      | some o =>
          rcases Kernel.exec_write ho hexec with ⟨-, -, rfl⟩ | ⟨-, rfl⟩
          · exact hmem
          · exact hmem
  | remove path =>
      rcases Kernel.exec_remove hexec with ⟨-, rfl⟩ | ⟨gone, n, hloc, -, rfl, rfl⟩
      · exact hmem
      · obtain ⟨-, key, hkey, rfl⟩ := hok
        obtain rfl := locate_pathConcat hdir hkey.1 hloc
        refine List.mem_filter.mpr ⟨hmem, ?_⟩
        -- another file has been removed
        have hne : loc ≠ resolve dir ++ [key] := by
          rintro rfl
          refine hspared rfl ?_
          rw [resolve_pathConcat dir hkey.1]
          exact hwf.lookup_files.mpr hmem
        simpa using hne

/-- What a process that has been told that something is put has done. -/
theorem Hand.Answered.file {op : CacheOp} {key : Text} (hanswered : h.Answered dir) (hop : h.op = some op)
    (hputs : op.puts = some key) (hne : op ≠ .putItem key) :
    ∃ p ∈ h.drafts, p.op = some op ∧ p.turn = h.turn ∧ p.path = pathConcat dir key ∧ p.stage = .closed ∧
      p.Exact h.sources := by
  rw [Hand.Answered, hop] at hanswered
  cases op with
  | put k fileName =>
      obtain rfl := Option.some.inj hputs
      exact hanswered
  | putData k data =>
      obtain rfl := Option.some.inj hputs
      exact hanswered
  | putItem k =>
      obtain rfl := Option.some.inj hputs
      exact absurd rfl hne
  | _ => cases hputs

/-- The file `ino` that somebody has created is where it was created. -/
def Kept (ino : Nat) (K : Kernel) (hs : Nat → Hand) : Prop :=
  ∀ i, ∀ p ∈ (hs i).drafts, p.ino = ino → (resolve p.path, ino) ∈ K.files

theorem Kept.called (hdir : '\x00' ∉ dir) (hwf : K.Wf) {ino : Nat} (hk : Kept ino K hs) {c : SysCall}
    {r : c.Reply} (hok : (hs i).Ok dir c) (hexec : Kernel.exec i c K = some (r, K'))
    (hspared : Spares ino i c K r) : Kept ino K' (Function.update hs i ((hs i).next dir K c r)) := by
  have hstay : ∀ j, ∀ p ∈ (hs j).drafts, p.ino = ino → (resolve p.path, ino) ∈ K'.files :=
    fun j p hp hino => mem_files_of_exec hdir hwf hok hexec hspared (hk j p hp hino)
  intro j q hq hino
  by_cases hj : j = i
  · subst hj
    rw [Function.update_self] at hq
    rcases next_draft hq with ⟨path, fd, rfl, rfl⟩ | ⟨p, hp, hpino, hpath, -⟩
    · rcases Kernel.exec_create hexec with ⟨rfl, rfl⟩ | ⟨at_, hat, -, -, rfl⟩
      · exact hstay j _ hq hino
      · have hname : at_ = resolve path := by
          rcases hok with rfl | ⟨-, key, hkey, rfl, -⟩
          · rw [infoPath] at hat ⊢
            rw [resolve_pathConcat dir isFileName_cacheInfoName]
            exact locate_pathConcat hdir isFileName_cacheInfoName hat
          · rw [resolve_pathConcat dir hkey.1]
            exact locate_pathConcat hdir hkey.1 hat
        obtain rfl : K.nextIno = ino := hino
        rw [hname]
        exact List.mem_cons_self
    · rw [← hpath]
      exact hstay j p hp (hpino.trans hino)
  · rw [Function.update_of_ne hj] at hq
    exact hstay j q hq hino

theorem kept_disciplined (hdir : '\x00' ∉ dir) (K₀ : Kernel) (ino : Nat) :
    Disciplined ((Usage.clients (keyed dir)).restrict (Spares ino)) (rules dir)
      (fun K hs => Sound dir K₀ K hs ∧ Kept ino K hs) (AtRest dir) := by
  refine ((disciplined hdir K₀).restrict (Spares ino)).and ?_ ?_ ?_
  · intro K hs i op _ _ hk j p hp
    by_cases hj : j = i
    · subst hj
      rw [Function.update_self] at hp
      exact hk j p hp
    · rw [Function.update_of_ne hj] at hp
      exact hk j p hp
  · intro K K' hs i c r hsound hk hok hexec hadm
    exact hk.called hdir hsound.wf hok hexec hadm.2
  · intro K K' hs _ hk hdrift j p hp hino
    exact hdrift.files.mem_iff.mpr (hk j p hp hino)

/-- What client `j` has created after its first `n` operations has a number from `first` on. -/
def Recent (first n j : Nat) (K : Kernel) (hs : Nat → Hand) : Prop :=
  first ≤ K.nextIno ∧ ∀ p ∈ (hs j).drafts, n < p.turn → first ≤ p.ino

theorem recent_disciplined (hdir : '\x00' ∉ dir) (K₀ : Kernel) (first n j : Nat) :
    Disciplined (Usage.clients (keyed dir)) (rules dir)
      (fun K hs => Sound dir K₀ K hs ∧ Recent first n j K hs) (AtRest dir) := by
  refine (disciplined hdir K₀).and ?_ ?_ ?_
  · rintro K hs i op - - ⟨hle, hrecent⟩
    refine ⟨hle, fun p hp => ?_⟩
    by_cases hj : j = i
    · subst hj
      rw [Function.update_self] at hp
      exact hrecent p hp
    · rw [Function.update_of_ne hj] at hp
      exact hrecent p hp
  · rintro K K' hs i c r - ⟨hle, hrecent⟩ - hexec -
    refine ⟨hle.trans (Kernel.later_of_exec hexec).nextIno, fun q hq hturn => ?_⟩
    by_cases hj : j = i
    · subst hj
      rw [Function.update_self] at hq
      rcases next_draft hq with ⟨path, fd, -, rfl⟩ | ⟨p, hp, hino, -, -, hpturn⟩
      · exact hle
      · exact hino ▸ hrecent p hp (hpturn ▸ hturn)
    · rw [Function.update_of_ne hj] at hq
      exact hrecent q hq hturn
  · rintro K K' hs - ⟨hle, hrecent⟩ hdrift
    exact ⟨hdrift.nextIno ▸ hle, hrecent⟩

/-- The operation that client `j` begins with an event. -/
def begins (j : Nat) : CacheEvent → Option CacheOp
  | .begun i op => if i = j then some op else none
  | _ => none

theorem begins_eq_some {j : Nat} {e : CacheEvent} {op : CacheOp} : begins j e = some op ↔ e = .begun j op := by
  cases e with
  | begun i op' =>
      by_cases hi : i = j
      · subst hi
        simp [begins]
      · simp [begins, hi]
  | called | drifted => exact iff_of_false nofun nofun

def lastBegun (j : Nat) : List CacheEvent → Option CacheOp
  | [] => none
  | e :: events => (lastBegun j events).or (begins j e)

theorem lastBegun_eq_none {j : Nat} {events : List CacheEvent} (h : ∀ op, .begun j op ∉ events) :
    lastBegun j events = none := by
  induction events with
  | nil => rfl
  | cons e events ih =>
      have hrest : lastBegun j events = none := ih fun op hmem => h op (List.mem_cons_of_mem e hmem)
      have hfirst : begins j e = none := Option.eq_none_iff_forall_ne_some.mpr fun op hop =>
        h op (begins_eq_some.mp hop ▸ List.mem_cons_self)
      rw [lastBegun, hrest, hfirst]
      rfl

/-- What a client that is not busy has been told last. -/
def answer (b : Config sysCalls Kernel Session) (j : Nat) : Option Bool :=
  match b.tasks j with
  | .idle t => some t.answer
  | .busy _ _ => none

theorem idle_of_answer {b : Config sysCalls Kernel Session} {j : Nat} {r : Bool} (h : answer b j = some r) :
    ∃ t, b.tasks j = .idle t ∧ t.answer = r := by
  unfold answer at h
  split at h
  next t htask => exact ⟨t, htask, Option.some.inj h⟩
  · cases h

/-- A file that is not removed stays where it is. -/
theorem lasting_disciplined (hdir : '\x00' ∉ dir) (K₀ : Kernel) (loc : List Text) (ino : Nat) :
    Disciplined ((Usage.clients (keyed dir)).restrict (Spares ino)) (rules dir)
      (fun K hs => Sound dir K₀ K hs ∧ (loc, ino) ∈ K.files) (AtRest dir) := by
  refine ((disciplined hdir K₀).restrict (Spares ino)).and ?_ ?_ ?_
  · exact fun _ _ hmem => hmem
  · intro K K' hs i c r hsound hmem hok hexec hadm
    exact mem_files_of_exec hdir hsound.wf hok hexec hadm.2 hmem
  · intro K K' hs _ hmem hdrift
    exact hdrift.files.mem_iff.mpr hmem

section Runs

variable {a : Config sysCalls Kernel Session} {j : Nat} {op : CacheOp} {key : Text}
  {steps front mid rest : List (CacheEvent × Config sysCalls Kernel Session)} {during : List CacheEvent}

/-- A client goes on with the operation that it has begun last. -/
theorem hands_op : ((rules dir).hands a steps hs j).op =
    (lastBegun j (steps.map Prod.fst)).or (hs j).op := by
  induction steps generalizing a hs with
  | nil => rfl
  | cons step steps ih =>
      obtain ⟨e, b⟩ := step
      rw [Discipline.hands_cons, ih, List.map_cons, lastBegun, Option.or_assoc]
      congr 1
      cases e with
      | begun i op =>
          show (Function.update hs i { hs i with op := some op, turn := (hs i).turn + 1 } j).op =
            Option.or (begins j (.begun i op)) _
          by_cases hj : j = i
          · subst hj
            simp [begins]
          · simp [begins, Function.update_of_ne hj, Ne.symm hj]
      | called i c r =>
          show (Function.update hs i ((hs i).next dir a.world c r) j).op = (hs j).op
          by_cases hj : j = i
          · subst hj
            rw [Function.update_self, next_op]
          · rw [Function.update_of_ne hj]
      | drifted => rfl

theorem hands_turn : (hs j).turn ≤ ((rules dir).hands a steps hs j).turn := by
  induction steps generalizing a hs with
  | nil => exact Nat.le_refl _
  | cons step steps ih =>
      obtain ⟨e, b⟩ := step
      rw [Discipline.hands_cons]
      refine Nat.le_trans ?_ ih
      cases e with
      | begun i op =>
          show _ ≤ (Function.update hs i { hs i with op := some op, turn := (hs i).turn + 1 } j).turn
          by_cases hj : j = i
          · subst hj
            rw [Function.update_self]
            exact Nat.le_succ _
          · rw [Function.update_of_ne hj]
      | called i c r =>
          show _ ≤ (Function.update hs i ((hs i).next dir a.world c r) j).turn
          by_cases hj : j = i
          · subst hj
            rw [Function.update_self, next_turn]
          · rw [Function.update_of_ne hj]
      | drifted => exact Nat.le_refl _

/-- What a client knows of its sources it has been told in the run, or it knew it before. -/
theorem hands_sources {x : Asked} (hx : x ∈ ((rules dir).hands a steps hs j).sources) :
    x ∈ (hs j).sources ∨ .called j (.source x.fileName) x.reply ∈ steps.map Prod.fst := by
  induction steps generalizing a hs with
  | nil => exact .inl hx
  | cons step steps ih =>
      obtain ⟨e, b⟩ := step
      rcases ih hx with hx | hcalled
      swap
      · exact .inr (List.mem_cons_of_mem e hcalled)
      cases e with
      | begun i op =>
          replace hx : x ∈
            (Function.update hs i { hs i with op := some op, turn := (hs i).turn + 1 } j).sources := hx
          by_cases hj : j = i
          · subst hj
            rw [Function.update_self] at hx
            exact .inl hx
          · rw [Function.update_of_ne hj] at hx
            exact .inl hx
      | called i c r =>
          replace hx : x ∈ (Function.update hs i ((hs i).next dir a.world c r) j).sources := hx
          by_cases hj : j = i
          · subst hj
            rw [Function.update_self] at hx
            rcases next_sources hx with hx | ⟨-, hcall⟩
            · exact .inl hx
            · obtain ⟨rfl, heq⟩ := Sigma.mk.inj hcall
              obtain rfl := eq_of_heq heq
              exact .inr List.mem_cons_self
          · rw [Function.update_of_ne hj] at hx
            exact .inl hx
      | drifted => exact .inl hx

/-- At the end of an operation the client has that operation in hand, which is a later one than those before. -/
theorem hands_operation (hmid : mid.map Prod.fst = .begun j op :: during) (hduring : ∀ op', .begun j op' ∉ during) :
    (hs j).turn < ((rules dir).hands a mid hs j).turn ∧ ((rules dir).hands a mid hs j).op = some op := by
  constructor
  · cases mid with
    | nil => cases hmid
    | cons step mid =>
        obtain ⟨e, b⟩ := step
        obtain ⟨rfl, -⟩ := List.cons.inj hmid
        rw [Discipline.hands_cons]
        refine Nat.lt_of_lt_of_le ?_ hands_turn
        show _ < (Function.update hs j _ j).turn
        rw [Function.update_self]
        exact Nat.lt_succ_self _
  · rw [hands_op, hmid, lastBegun, lastBegun_eq_none hduring]
    simp [begins]

/-- What a client knows of its sources at the end of an operation, and did not know before, it has been told in
the operation. -/
theorem called_of_sources (hmid : mid.map Prod.fst = .begun j op :: during) {x : Asked}
    (hx : x ∈ ((rules dir).hands a mid hs j).sources) (hnew : x ∉ (hs j).sources) :
    .called j (.source x.fileName) x.reply ∈ during := by
  rcases hands_sources hx with hold | hcalled
  · exact absurd hold hnew
  · rw [hmid] at hcalled
    exact (List.mem_cons.mp hcalled).resolve_left nofun

/-- The file of a draft is under its key at the end, if nobody removes it. -/
theorem mem_files_of_spared (hdir : '\x00' ∉ dir) (hwf : a.world.Wf) (hnew : ∀ i, a.tasks i = .idle .new)
    {p : Draft} (hp : p ∈ (handsAfter dir a front j).drafts)
    (hrun : ((Usage.clients (keyed dir)).restrict (Spares p.ino)).Run a (front ++ rest)) :
    (resolve p.path, p.ino) ∈ (System.last a (front ++ rest)).world.files := by
  obtain ⟨hbefore, hrest⟩ := (System.run_append _ _ _).mp hrun
  have horderly := orderly_new dir hwf hnew
  have hstart : a.Orderly (rules dir) (fun K hs => Sound dir a.world K hs ∧ Kept p.ino K hs) (AtRest dir)
      fun _ => .new := ⟨⟨horderly.sound, by simp [Kept, Hand.new]⟩, horderly.keeps⟩
  have hend := (kept_disciplined hdir a.world p.ino).run hstart hbefore
  obtain ⟨hsound, hkept⟩ := hend.sound
  have hlast := (lasting_disciplined hdir a.world (resolve p.path) p.ino).run
    ⟨⟨hsound, hkept j p hp rfl⟩, hend.keeps⟩ hrest
  rw [System.last_append]
  exact hlast.sound.2

/-- When a client has been told that something is put, it is in a file that the client has created in that
operation and that nobody ever changes; and this is the file under the key for as long as nobody removes it. -/
theorem put_contents (hdir : '\x00' ∉ dir) (hwf : a.world.Wf) (hnew : ∀ i, a.tasks i = .idle .new)
    (hrun : (Usage.clients (keyed dir)).Run a (front ++ mid ++ rest))
    (hmid : mid.map Prod.fst = .begun j op :: during) (hduring : ∀ op', .begun j op' ∉ during)
    (hanswer : answer (System.last a (front ++ mid)) j = some true) (hputs : op.puts = some key)
    (hop : op ≠ .putItem key) :
    ∃ ino bytes, (System.last a front).world.nextIno ≤ ino ∧
      ino < (System.last a (front ++ mid)).world.nextIno ∧ Wrote dir a (front ++ mid) j ino bytes ∧
      Supplies Source.given during j key bytes op ∧
      (System.last a (front ++ mid ++ rest)).world.data ino = bytes ∧
      (((Usage.clients (keyed dir)).restrict (Spares ino)).Run a (front ++ mid ++ rest) →
        (resolve (pathConcat dir key), ino) ∈ (System.last a (front ++ mid ++ rest)).world.files) := by
  obtain ⟨hbefore, hrest⟩ := (System.run_append _ _ _).mp hrun
  obtain ⟨hfront, hoperation⟩ := (System.run_append _ _ _).mp hbefore
  obtain ⟨t, htask, hanswer⟩ := idle_of_answer hanswer
  have horderly := orderly_new dir hwf hnew
  have hbegin : (System.last a front).Orderly (rules dir) (Sound dir a.world) (AtRest dir)
      (handsAfter dir a front) := (disciplined hdir a.world).run horderly hfront
  have hend : (System.last a (front ++ mid)).Orderly (rules dir) (Sound dir a.world) (AtRest dir)
      (handsAfter dir a (front ++ mid)) := (disciplined hdir a.world).run horderly hbefore
  have htraced := traced_handsAfter dir a front j
  -- what the client has in hand when it has been told
  have hhands : handsAfter dir a (front ++ mid) j =
      (rules dir).hands (System.last a front) mid (handsAfter dir a front) j := by
    rw [handsAfter, Discipline.hands_append]
    rfl
  obtain ⟨hturn, hhand⟩ : (handsAfter dir a front j).turn < (handsAfter dir a (front ++ mid) j).turn ∧
      (handsAfter dir a (front ++ mid) j).op = some op := by
    rw [hhands]
    exact hands_operation hmid hduring
  -- the client has closed a file that holds what it was to put
  obtain ⟨p, hp, hpop, hpturn, hpath, hclosed, hexact⟩ :=
    ((hend.at_rest htask).answered hanswer).file hhand hputs hop
  have hstored := hend.sound.draft j p hp
  refine ⟨p.ino, p.bytes, ?_, hstored.lt, ⟨p, hp, rfl, hclosed, rfl⟩, ?_, ?_, ?_⟩
  · -- it has been created in the operation
    have hrecent := ((recent_disciplined hdir a.world (System.last a front).world.nextIno
      (handsAfter dir a front j).turn j).run ⟨⟨hbegin.sound, Nat.le_refl _, fun q hq hlt =>
        absurd hlt (Nat.not_lt.mpr (htraced.drafts_turn q hq))⟩, hbegin.keeps⟩ hoperation).sound.2
    exact hrecent.2 p (hhands ▸ hp) (hpturn ▸ hturn)
  · refine hexact.supplies hpop hputs (fun x hx hxturn => ?_) fun _ _ _ _ => rfl
    rw [hhands] at hx
    refine called_of_sources hmid hx fun hold => ?_
    have hle := htraced.sources_turn x hold
    rw [hxturn, hpturn] at hle
    exact absurd hturn (Nat.not_lt.mpr hle)
  · have hfin : Finished dir (System.last a (front ++ mid)).world (handsAfter dir a (front ++ mid)) p.ino := by
      refine ⟨hstored.lt, hstored.notInfo, ?_⟩
      intro k q hq hino
      obtain ⟨-, rfl⟩ := hend.sound.distinct k j q hq p hp hino
      exact hclosed
    rw [System.last_append, hfin.data_of_reaches hdir hend ⟨rest, hrest, rfl⟩, hstored.data]
  · intro hspared
    have hmem := mem_files_of_spared hdir hwf hnew hp hspared
    rwa [hpath] at hmem

/-- One client puts, deletes and puts again, and the other one then wants to put something else. -/
theorem put_contents_two : ∃ front mid rest : List (CacheEvent × Config sysCalls Kernel Session),
    ∃ during, mid.map Prod.fst = .begun 0 (.putData ['a'] [1, 2]) :: during ∧
      (System.last newCache (front ++ mid ++ rest)).world.data 4 = [1, 2] ∧
      (resolve (pathConcat ['/', 'c'] ['a']), 4) ∈
        (System.last newCache (front ++ mid ++ rest)).world.files := by
  let sys := (Usage.clients (keyed ['/', 'c'])).restrict (Spares 4)
  obtain ⟨front, hfront, hp, -⟩ := System.exists_run sys newCache
    ((0, some (.initCache ['/', 'c'] 0 0)) :: List.replicate 3 (0, none) ++
      (0, some (.putData ['a'] [3])) :: List.replicate 12 (0, none) ++
      (0, some (.del ['a'])) :: List.replicate 13 (0, none))
    (p := fun front => (System.last newCache front).world.nextIno = 4 &&
      (System.follow sys (System.last newCache front)
        ((0, some (.putData ['a'] [1, 2])) :: List.replicate 12 (0, none))).any fun mid =>
          (mid.head?.any fun step => begins 0 step.1 = some (.putData ['a'] [1, 2])) &&
          (mid.tail.all fun step => begins 0 step.1 = none) &&
          decide (answer (System.last (System.last newCache front) mid) 0 = some true ∧
            (System.last (System.last newCache front) mid).world.nextIno = 5) &&
          (System.follow sys (System.last (System.last newCache front) mid)
            ((1, some (.initCache ['/', 'c'] 0 0)) :: List.replicate 3 (1, none) ++
              (1, some (.putData ['a'] [3])) :: List.replicate 3 (1, none))).any fun _ => true)
    (by decide +kernel)
  rw [Bool.and_eq_true, decide_eq_true_eq] at hp
  obtain ⟨hfirst, hp⟩ := hp
  obtain ⟨mid, hmid, hp, -⟩ := System.exists_run _ _ _ hp
  simp only [Bool.and_eq_true, decide_eq_true_eq] at hp
  obtain ⟨⟨⟨hbegun, hduring⟩, hanswer, hlast⟩, hrest⟩ := hp
  obtain ⟨rest, hrest, -, -⟩ := System.exists_run _ _ _ hrest
  have hall : sys.Run newCache (front ++ mid ++ rest) :=
    (System.run_append _ _ _).mpr ⟨(System.run_append _ _ _).mpr ⟨hfront, hmid⟩, by
      rw [System.last_append]
      exact hrest⟩
  cases mid with
  | nil => cases hbegun
  | cons step mid =>
      have hbegun := begins_eq_some.mp (of_decide_eq_true hbegun)
      have hnone : ∀ op, .begun 0 op ∉ mid.map Prod.fst := by
        intro op hmem
        obtain ⟨step, hstep, heq⟩ := List.mem_map.mp hmem
        have hnone := of_decide_eq_true (List.all_eq_true.mp hduring step hstep)
        rw [heq] at hnone
        cases hnone
      rw [← System.last_append] at hanswer hlast
      obtain ⟨ino, bytes, hle, hlt, -, hput, hdata, hthere⟩ := put_contents (by decide) Usage.wf_oneFolder
        (fun _ => rfl) hall.of_restrict (congrArg (· :: mid.map Prod.fst) hbegun) hnone hanswer rfl
        (by decide)
      obtain rfl : ino = 4 := by omega
      obtain ⟨-, rfl⟩ := hput
      exact ⟨front, step :: mid, rest, _, congrArg (· :: mid.map Prod.fst) hbegun, hdata, hthere hall⟩

end Runs

end Skunk.BesUtils
