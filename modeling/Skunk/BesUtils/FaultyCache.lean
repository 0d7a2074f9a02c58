import Skunk.BesUtils.CacheBalance
import Skunk.Effect.Machine
import Skunk.Posix.Faults

/-!
# A cache whose calls fail

Any number of processes use a cache while each `open`, `read`, `write`, `fstat`, `stat` and `remove` may
fail, and a `read` or a `write` may come to less than it was asked for. The recorded size then need not be
that of the items. What `del` and `purge` rely on is less: it must be enough, so that nothing is subtracted
from it that is not in it. `sound` says which outcomes of which calls are harmless in this respect.

The files of live `PutItem`s and of puts that are not finished are pending, as in `CacheProtocol`, and do not
count. Nobody but the holder of the lock of the cache changes the recorded size or what counts, and the
others at most make files longer (`Still`).
-/

namespace Skunk.BesUtils

open Effect Posix

namespace Faulty

/-! ## Which calls may fail -/

/-- `open`, `read`, `write`, `fstat`, `stat` and `remove`. -/
def mayFail : SysCall → Bool
  | .stat _ | .create _ | .openRead _ | .openWrite _ | .read _ _ | .write _ _ | .fstat _ | .remove _
  | .source _ => true
  | .mkdirP _ | .close _ | .flock _ _ _ | .unlock _ | .futimes _ | .seek _ _ | .readdir _
  | .subtract _ _ => false

/-- The processes that use a cache. -/
def clients (may : CacheOp → Prop) : Machine sysCalls Kernel Session CacheOp (Option Fault) where
  exec := fun fault i c K => K.attempt mayFail i fault c
  drift := Kernel.Drift
  start := CacheOp.run
  may := may
  admits := fun _ _ _ _ _ _ => True

/-! ## What is harmless -/

/-- The size that `get_cache_info_size` makes of what it has read. -/
def readSize : Option (List UInt8) → Nat
  | none => 0
  | some bytes => if bytes.length = 8 then decodeBytes bytes else 0

def onInfo (home : List Text) (K : Kernel) (fd : Nat) : Bool :=
  match K.opened fd with
  | none => false
  | some o => decide ((home ++ [cacheInfoName], o.ino) ∈ K.files)

def onItem (home : List Text) (K : Kernel) (fd : Nat) : Bool :=
  match K.opened fd with
  | none => false
  | some o => K.files.any fun e => decide (e.2 = o.ino ∧ IsItem home e.1)

/-- The open file is no item, or an empty one. -/
def onNothing (home : List Text) (K : Kernel) (fd : Nat) : Bool :=
  !onItem home K fd || decide (Usage.openSize K fd = 0)

/-- The recorded size is read right, or by a purge that does nothing when it reads zero. -/
def soundRead (home : List Text) (op : CacheOp) (t : Session) (K : Kernel) (r : Option (List UInt8)) :
    Bool :=
  match op with
  | .purge => decide (readSize r = recordedSize home K) || decide (0 < t.cache.maxCacheSizeInBytes)
  | _ => decide (readSize r = recordedSize home K)

/-- A size that is added is measured right and does not overflow the recorded one; a size that is
subtracted is that of an item. -/
def soundFstat (home : List Text) (op : CacheOp) (fd : Nat) (K : Kernel) (r : Option Nat) : Bool :=
  match op with
  | .del _ => onItem home K fd || decide (r.getD 0 = 0)
  | _ =>
    decide (r.getD 0 = Usage.openSize K fd) && decide (recordedSize home K + Usage.openSize K fd < 2 ^ 64)

/-- The recorded size is not less than what was to be written, or not changed where it is written without
the lock; an item that is put gets all its bytes or none. -/
def soundWrite (home : List Text) (op : CacheOp) (fd : Nat) (bytes : List UInt8) (K : Kernel)
    (r : Option Nat) (K' : Kernel) : Bool :=
  match op with
  | .writePutItem _ _ => true
  | .initCache _ _ _ => decide (recordedSize home K' = recordedSize home K)
  | _ =>
    if onInfo home K fd then decide (decodeBytes bytes ≤ recordedSize home K')
    else decide (r = some bytes.length) || onNothing home K' fd

/-- A `PutItem` that is destroyed without a `cache_info` has nothing in it. -/
def soundClose (home : List Text) (op : CacheOp) (t : Session) (fd : Nat) (K : Kernel) : Bool :=
  match op with
  | .destroyPutItem _ => t.cache.cacheInfoFd.isSome || onNothing home K fd
  | _ => true

/-- An outcome of a call that leaves what is recorded enough. -/
def sound (home : List Text) (op : CacheOp) (t : Session) :
    (c : SysCall) → Kernel → c.Reply → Kernel → Bool
  | .read _ _, K, r, _ => soundRead home op t K r
  | .fstat fd, K, r, _ => soundFstat home op fd K r
  | .write fd bytes, K, r, K' => soundWrite home op fd bytes K r K'
  | .close fd, K, _, _ => soundClose home op t fd K
  | .stat _, _, _, _ | .mkdirP _, _, _, _ | .create _, _, _, _ | .openRead _, _, _, _
  | .openWrite _, _, _, _ | .flock _ _ _, _, _, _ | .unlock _, _, _, _ | .futimes _, _, _, _
  | .seek _ _, _, _, _ | .remove _, _, _, _ | .readdir _, _, _, _ | .source _, _, _, _
  | .subtract _ _, _, _, _ => true

/-- The processes, in runs with harmless outcomes. -/
def soundClients (dir : Text) : Machine sysCalls Kernel Session CacheOp (Option Fault) :=
  (clients (Usage.inDir dir)).restrict fun op t c K r K' => sound (resolve dir) op t c K r K' = true

/-! ## The protocol -/

section Protocol

variable (u : Usage)

/-- Client `i` holds the lock of the cache through `f`. -/
def Inside (K : Kernel) (i f : Nat) : Prop :=
  ∃ o, K.opened f = some o ∧ o.opener = i ∧ u.IsInfo K o.ino ∧ o.lock = some .exclusive

/-- Client `i` has a descriptor `f` for `cache_info`. -/
def HasInfo (K : Kernel) (i f : Nat) : Prop :=
  ∃ o, K.opened f = some o ∧ o.opener = i ∧ u.IsInfo K o.ino

/-- What always holds: what is pending is open with an exclusive lock, and what is recorded is enough. -/
structure Inv (s : View) : Prop where
  wf : s.1.Wf
  claim : ∀ c ∈ s.2.pending, ∃ o, s.1.opened c.fd = some o ∧ o.opener = c.client ∧ o.ino = c.ino ∧
    o.lock = some .exclusive ∧ ¬ u.IsInfo s.1 o.ino
  enough : u.counted s ≤ u.recorded s

/-- What holds while the others are in no section. -/
structure Still (s s' : View) : Prop where
  files : s'.1.files.Perm s.1.files
  folders : ∀ e ∈ s.1.folders, e ∈ s'.1.folders
  pending : ∀ c ∈ s'.2.pending, c ∈ s.2.pending
  recorded : u.recorded s' = u.recorded s
  counted : u.counted s' ≤ u.counted s
  data : ∀ e ∈ s.1.files, ¬ u.IsInfo s.1 e.2 → (∀ c ∈ s.2.pending, c.ino ≠ e.2) →
    s'.1.data e.2 = s.1.data e.2
  grows : ∀ e ∈ s.1.files, (s.1.data e.2).length ≤ (s'.1.data e.2).length

/-- What client `i` may rely on, whatever the others do. -/
structure Rely (i : Nat) (s s' : View) : Prop where
  own : ∀ fd o, s.1.opened fd = some o → o.opener = i → s'.1.opened fd = some o
  next : s.1.nextFd ≤ s'.1.nextFd
  info : ∀ ino, u.IsInfo s.1 ino → u.IsInfo s'.1 ino
  claims : ∀ c : Pending, c.client = i → (c ∈ s'.2.pending ↔ c ∈ s.2.pending)
  claimed : ∀ c ∈ s.2.pending, c.client = i → s'.1.data c.ino = s.1.data c.ino
  still : ∀ f, Inside u s.1 i f → Still u s s'

/-- What is subtracted from a size is in it. -/
def Safe : SysCall → Prop
  | .subtract a b => b ≤ a
  | _ => True

end Protocol

variable {u : Usage} {i f fd n : Nat} {s s' s'' : View}

theorem Still.refl (s : View) : Still u s s :=
  ⟨.refl _, fun _ h => h, fun _ h => h, rfl, Nat.le_refl _, fun _ _ _ _ => rfl, fun _ _ => Nat.le_refl _⟩

theorem Still.isInfo (h : Still u s s') (ino : Nat) : u.IsInfo s'.1 ino ↔ u.IsInfo s.1 ino := h.files.mem_iff

theorem Still.trans (h : Still u s s') (h' : Still u s' s'') : Still u s s'' where
  files := h'.files.trans h.files
  folders := fun e he => h'.folders e (h.folders e he)
  pending := fun c hc => h.pending c (h'.pending c hc)
  recorded := h'.recorded.trans h.recorded
  counted := Nat.le_trans h'.counted h.counted
  data := by
    intro e he hinfo hfree
    have hinfo' : ¬ u.IsInfo s'.1 e.2 := by rwa [h.isInfo]
    rw [h'.data e (h.files.mem_iff.mpr he) hinfo' fun c hc => hfree c (h.pending c hc),
      h.data e he hinfo hfree]
  grows := fun e he => Nat.le_trans (h.grows e he) (h'.grows e (h.files.mem_iff.mpr he))

theorem Rely.inside (h : Rely u i s s') (hin : Inside u s.1 i f) : Inside u s'.1 i f := by
  obtain ⟨o, ho, hi, hinfo, hlock⟩ := hin
  exact ⟨o, h.own f o ho hi, hi, h.info _ hinfo, hlock⟩

theorem Rely.hasInfo (h : Rely u i s s') (hfd : HasInfo u s.1 i f) : HasInfo u s'.1 i f := by
  obtain ⟨o, ho, hi, hinfo⟩ := hfd
  exact ⟨o, h.own f o ho hi, hi, h.info _ hinfo⟩

theorem Rely.refl (i : Nat) (s : View) : Rely u i s s :=
  ⟨fun _ _ ho _ => ho, Nat.le_refl _, fun _ h => h, fun _ _ => Iff.rfl, fun _ _ _ => rfl, fun _ _ => .refl s⟩

theorem Rely.trans (h : Rely u i s s') (h' : Rely u i s' s'') : Rely u i s s'' where
  own := fun fd o ho hi => h'.own fd o (h.own fd o ho hi) hi
  next := Nat.le_trans h.next h'.next
  info := fun ino hino => h'.info ino (h.info ino hino)
  claims := fun c hc => (h'.claims c hc).trans (h.claims c hc)
  claimed := fun c hc hi => (h'.claimed c ((h.claims c hi).mpr hc) hi).trans (h.claimed c hc hi)
  still := fun f hin => (h.still f hin).trans (h'.still f (h.inside hin))

/-- The protocol of a cache whose calls fail. -/
def protocol (u : Usage) : Protocol sysCalls Kernel Ghost where
  inv := Inv u
  rely := Rely u
  safe := fun _ c _ => Safe c
  mark := fun _ _ _ _ _ => True
  rely_refl := Rely.refl
  rely_trans := Rely.trans

/-! ## What is pending -/

/-- Two descriptors with exclusive locks on one file are the same. -/
theorem eq_of_locked {K : Kernel} (hwf : K.Wf) {g g' : Nat} {x y : OpenFile} (hx : K.opened g = some x)
    (hy : K.opened g' = some y) (hino : x.ino = y.ino) (hlock : x.lock = some .exclusive)
    (hlock' : y.lock = some .exclusive) : g = g' := by
  by_contra hne
  rw [hwf.alone g g' x y hx hy hne hino hlock] at hlock'
  cases hlock'

/-- One client is in the section. -/
theorem Inv.inside_eq (h : Inv u s) {j g : Nat} (hi : Inside u s.1 i f) (hj : Inside u s.1 j g) : j = i := by
  obtain ⟨o, ho, hopener, hinfo, hlock⟩ := hi
  obtain ⟨x, hx, hopener', hinfo', hlock'⟩ := hj
  have hfd : g = f := eq_of_locked h.wf hx ho (h.wf.ino_eq hinfo' hinfo) hlock' hlock
  subst hfd
  rw [ho] at hx
  obtain rfl := Option.some.inj hx
  exact hopener'.symm.trans hopener

/-- A file that the client has locked under a descriptor without a claim is not pending. -/
theorem Inv.free (h : Inv u s) {o : OpenFile} (ho : s.1.opened fd = some o) (hlock : o.lock = some .exclusive)
    (hfd : ∀ c ∈ s.2.pending, c.fd ≠ fd) : ∀ c ∈ s.2.pending, c.ino ≠ o.ino := by
  intro c hc hino
  obtain ⟨x, hx, -, hxino, hxlock, -⟩ := h.claim c hc
  exact hfd c hc (eq_of_locked h.wf hx ho (hxino.trans hino) hxlock hlock)

/-- Two claims on one file are one. -/
theorem Inv.claim_eq (h : Inv u s) {c d : Pending} (hc : c ∈ s.2.pending) (hd : d ∈ s.2.pending)
    (hino : c.ino = d.ino) : c = d := by
  obtain ⟨x, hx, hxclient, hxino, hxlock, -⟩ := h.claim c hc
  obtain ⟨y, hy, hyclient, hyino, hylock, -⟩ := h.claim d hd
  have hfd : c.fd = d.fd := eq_of_locked h.wf hx hy ((hxino.trans hino).trans hyino.symm) hxlock hylock
  rw [← hfd, hx] at hy
  obtain rfl := Option.some.inj hy
  cases c
  cases d
  simp_all

theorem Inv.opened_next (h : Inv u s) : s.1.opened s.1.nextFd = none := by
  rw [Option.eq_none_iff_forall_ne_some]
  exact fun x hx => Nat.lt_irrefl _ (h.wf.fd_lt _ x hx)

theorem Inv.next_ne (h : Inv u s) {g : Nat} {x : OpenFile} (hx : s.1.opened g = some x) :
    g ≠ s.1.nextFd := Nat.ne_of_lt (h.wf.fd_lt g x hx)

/-- The more is pending, the less counts. -/
theorem counted_anti {K : Kernel} {g g' : Ghost} (h : ∀ c ∈ g.pending, c ∈ g'.pending) :
    u.counted (K, g') ≤ u.counted (K, g) := by
  apply List.sum_le_sum
  intro e _
  rw [Usage.weight, Usage.weight]
  split
  next hx =>
    rw [if_pos ⟨hx.1, fun c hc => hx.2 c (h c hc)⟩]
  · exact Nat.zero_le _

/-! ## Moves -/

/-- What a call of client `i` does to the cache. -/
structure Move (u : Usage) (i : Nat) (s s' : View) : Prop where
  inv : Inv u s'
  others : ∀ j, j ≠ i → Rely u j s s'

theorem Move.same (h : Inv u s) : Move u i s s := ⟨h, fun j _ => .refl j s⟩

theorem Move.trans (h : Move u i s s') (h' : Move u i s' s'') : Move u i s s'' :=
  ⟨h'.inv, fun j hj => (h.others j hj).trans (h'.others j hj)⟩

section Moves

variable {K' : Kernel} {o : OpenFile} {o' : Option OpenFile}

/-- Nothing but a description changes. -/
theorem Still.of_differs (hd : Usage.Differs s.1 K' fd o') : Still u s (K', s.2) where
  files := by rw [hd.files]
  folders := by
    rw [hd.folders]
    exact fun _ he => he
  pending := fun _ hc => hc
  recorded := hd.recorded s.2
  counted := Nat.le_of_eq hd.counted
  data := fun e _ _ _ => by rw [hd.data]
  grows := fun e _ => by rw [hd.data]

/-- A description changes that is the client's own, or new. A pending file keeps its lock. -/
theorem Move.of_differs (h : Inv u s) (hwf : K'.Wf) (hd : Usage.Differs s.1 K' fd o')
    (hnext : s.1.nextFd ≤ K'.nextFd) (hown : ∀ x, s.1.opened fd = some x → x.opener = i)
    (hkeep : (∃ c ∈ s.2.pending, c.fd = fd) → ∀ x, s.1.opened fd = some x →
      ∃ y, o' = some y ∧ Usage.SameFile x y) : Move u i s (K', s.2) where
  inv := by
    refine ⟨hwf, ?_, ?_⟩
    · intro c hc
      obtain ⟨x, hx, hclient, hino, hlock, hinfo⟩ := h.claim c hc
      by_cases hfd : c.fd = fd
      · subst hfd
        obtain ⟨y, hy, hyino, hylock, hyopener⟩ := hkeep ⟨c, hc, rfl⟩ x hx
        refine ⟨y, by rw [hd.opened_self, hy], hyopener.trans hclient, hyino.trans hino,
          hylock.trans hlock, ?_⟩
        rw [hd.isInfo, hyino]
        exact hinfo
      · exact ⟨x, by rw [hd.opened_ne hfd, hx], hclient, hino, hlock, by rwa [hd.isInfo]⟩
    · rw [hd.recorded, hd.counted]
      exact h.enough
  others := by
    intro j hj
    refine ⟨?_, hnext, fun ino hino => (hd.isInfo ino).mpr hino, fun _ _ => Iff.rfl, ?_,
      fun _ _ => .of_differs hd⟩
    · intro g x hx hopener
      have hg : g ≠ fd := by
        rintro rfl
        exact hj (hopener.symm.trans (hown x hx))
      rw [hd.opened_ne hg, hx]
    · intro c _ _
      rw [hd.data]

/-- Moving in a file of one's own. -/
theorem Move.offset (h : Inv u s) (ho : s.1.opened fd = some o) (hi : o.opener = i) (pos : Nat) :
    Move u i s (s.1.setOpen fd (some { o with offset := pos }), s.2) := by
  have hd : Usage.Differs s.1 (s.1.setOpen fd (some { o with offset := pos })) fd
      (some { o with offset := pos }) := ⟨rfl, rfl, rfl, rfl⟩
  refine .of_differs h (h.wf.setOffset ho pos) hd (Nat.le_refl _) ?_ ?_
  · intro y hy
    rw [ho] at hy
    obtain rfl := Option.some.inj hy
    exact hi
  · intro _ y hy
    rw [ho] at hy
    obtain rfl := Option.some.inj hy
    exact ⟨_, rfl, rfl, rfl, rfl⟩

/-- The recorded size does not change with a new file, whatever that is. -/
theorem recorded_addFile (hwf : s.1.Wf) {loc : List Text} (hnew : s.1.entries.lookup loc = none)
    (hwf' : (s.1.addFile i loc).Wf) : u.recorded (s.1.addFile i loc, s.2) = u.recorded s := by
  by_cases hloc : loc = u.infoLoc
  · subst hloc
    have hnone : ∀ ino, ¬ u.IsInfo s.1 ino := by
      intro ino hino
      cases hnew.symm.trans (hwf.lookup_entries.mpr (Kernel.mem_entries_of_file hino))
    have hinfo : u.IsInfo (s.1.addFile i u.infoLoc) s.1.nextIno := List.mem_cons_self
    rw [Usage.recorded_eq_zero hwf hnone, Usage.recorded_eq (s := (s.1.addFile i u.infoLoc, s.2)) hwf' hinfo,
      Kernel.addFile_data_self]
    rfl
  · by_cases hany : ∃ ino, u.IsInfo s.1 ino
    · obtain ⟨ino, hino⟩ := hany
      have hinfo : u.IsInfo (s.1.addFile i loc) ino := List.mem_cons_of_mem _ hino
      have hne : ino ≠ s.1.nextIno := Nat.ne_of_lt (hwf.entry_lt _ (Kernel.mem_entries_of_file hino))
      rw [Usage.recorded_eq hwf hino, Usage.recorded_eq (s := (s.1.addFile i loc, s.2)) hwf' hinfo,
        Kernel.addFile_data_of_ne hne]
    · have hnone : ∀ ino, ¬ u.IsInfo s.1 ino := fun ino hino => hany ⟨ino, hino⟩
      rw [Usage.recorded_eq_zero hwf hnone, Usage.recorded_eq_zero (s := (s.1.addFile i loc, s.2)) hwf']
      intro ino hino
      rcases List.mem_cons.mp hino with heq | hino
      · exact hloc (Prod.mk.inj heq).1.symm
      · exact hnone ino hino

/-- A file is created: any in the section, `cache_info` outside. -/
theorem Move.addFile (h : Inv u s) {loc : List Text} (hnew : s.1.entries.lookup loc = none)
    (hnames : ∀ n ∈ loc, IsFileName n) (hside : Inside u s.1 i f ∨ loc = u.infoLoc) :
    Move u i s (s.1.addFile i loc, s.2) := by
  have hwf := h.wf.addFile i hnew hnames
  have hopened : ∀ g x, s.1.opened g = some x → (s.1.addFile i loc).opened g = some x := by
    intro g x hx
    rw [Kernel.addFile_opened_of_ne (h.next_ne hx)]
    exact hx
  have hdata : ∀ ino, ino < s.1.nextIno → (s.1.addFile i loc).data ino = s.1.data ino :=
    fun ino hino => Kernel.addFile_data_of_ne (Nat.ne_of_lt hino)
  have hino : ∀ c ∈ s.2.pending, c.ino < s.1.nextIno := by
    intro c hc
    obtain ⟨x, hx, -, hxino, -⟩ := h.claim c hc
    rw [← hxino]
    exact h.wf.ino_lt c.fd x hx
  refine ⟨⟨hwf, ?_, ?_⟩, fun j hj => ⟨fun g x hx _ => hopened g x hx, Nat.le_succ _, ?_, fun _ _ => Iff.rfl,
    fun c hc _ => hdata c.ino (hino c hc), ?_⟩⟩
  · intro c hc
    obtain ⟨x, hx, hclient, hxino, hlock, hinfo⟩ := h.claim c hc
    refine ⟨x, hopened _ x hx, hclient, hxino, hlock, fun hmem => ?_⟩
    rcases List.mem_cons.mp hmem with heq | hmem
    · exact absurd (h.wf.ino_lt _ x hx) (by rw [(Prod.mk.inj heq).2]; exact Nat.lt_irrefl _)
    · exact hinfo hmem
  · rw [Usage.counted_addFile h.wf, recorded_addFile h.wf hnew hwf]
    exact h.enough
  · exact fun ino hino => List.mem_cons_of_mem _ hino
  · intro g hin
    exfalso
    rcases hside with hi | rfl
    · exact hj (h.inside_eq hi hin)
    · obtain ⟨x, -, -, hinfo, -⟩ := hin
      cases hnew.symm.trans (h.wf.lookup_entries.mpr (Kernel.mem_entries_of_file hinfo))

/-- In the section, a file other than `cache_info` is removed. -/
theorem Move.dropFile (h : Inv u s) (hin : Inside u s.1 i f) {loc : List Text} (hloc : u.infoLoc ≠ loc) :
    Move u i s (s.1.dropFile loc, s.2) := by
  have hsub : (s.1.dropFile loc).files.Sublist s.1.files := List.filter_sublist
  refine ⟨⟨h.wf.dropFile loc, ?_, ?_⟩, fun j hj => ⟨fun _ _ hx _ => hx, Nat.le_refl _, ?_, fun _ _ => Iff.rfl,
    fun _ _ _ => rfl, fun g hj' => absurd (h.inside_eq hin hj') hj⟩⟩
  · intro c hc
    obtain ⟨x, hx, hclient, hino, hlock, hinfo⟩ := h.claim c hc
    exact ⟨x, hx, hclient, hino, hlock, fun hmem => hinfo (List.mem_of_mem_filter hmem)⟩
  · rw [Usage.recorded_dropFile hloc]
    exact Nat.le_trans ((hsub.map _).sum_le_sum fun _ _ => Nat.zero_le _) h.enough
  · intro ino hino
    have hne : decide (u.infoLoc ≠ loc) = true := decide_eq_true hloc
    exact List.mem_filter.mpr ⟨hino, hne⟩

section Contents

variable {ino : Nat} {bytes : List UInt8}

/-- Nothing pending is `cache_info`. -/
theorem Inv.claim_ne (h : Inv u s) {c : Pending} (hc : c ∈ s.2.pending) (hinfo : u.IsInfo s.1 ino) :
    c.ino ≠ ino := by
  rintro rfl
  obtain ⟨x, -, -, hino, -, hnot⟩ := h.claim c hc
  rw [hino] at hnot
  exact hnot hinfo

/-- An item is not `cache_info`. -/
theorem not_item_of_info (hwf : s.1.Wf) (hinfo : u.IsInfo s.1 ino) {e : List Text × Nat} (he : e ∈ s.1.files)
    (hino : e.2 = ino) : ¬ IsItem u.home e.1 := by
  intro hitem
  have heq := hwf.eq_of_ino (Kernel.mem_entries_of_file he) (Kernel.mem_entries_of_file hinfo) hino
  rw [heq] at hitem
  exact Usage.not_isItem_infoLoc hitem

/-- A pending file of the client is written to and does not get shorter. -/
theorem Move.fill (bytes : List UInt8) (h : Inv u s) {c : Pending} (hc : c ∈ s.2.pending)
    (hclient : c.client = i) (hlonger : (s.1.data c.ino).length ≤ bytes.length) :
    Move u i s (s.1.setData c.ino bytes, s.2) := by
  have hcounted : u.counted (s.1.setData c.ino bytes, s.2) = u.counted s :=
    Usage.counted_setData_of_not fun e _ hino hx => hx.2 c hc hino.symm
  have hrecorded : u.recorded (s.1.setData c.ino bytes, s.2) = u.recorded s :=
    Usage.recorded_setData_of_ne (fun hinfo => h.claim_ne hc hinfo rfl) h.wf s.2
  refine ⟨⟨h.wf.setData _ _, h.claim, ?_⟩, fun j hj => ⟨fun _ _ hx _ => hx, Nat.le_refl _, fun _ hx => hx,
    fun _ _ => Iff.rfl, ?_, fun _ _ => ⟨.refl _, fun _ he => he, fun _ hd => hd, hrecorded,
      Nat.le_of_eq hcounted, ?_, ?_⟩⟩⟩
  · rw [hcounted, hrecorded]
    exact h.enough
  · intro d hd hdj
    apply Kernel.setData_data_of_ne
    intro hino
    rw [h.claim_eq hd hc hino, hclient] at hdj
    exact hj hdj.symm
  · intro e _ _ hfree
    exact Kernel.setData_data_of_ne fun hino => hfree c hc hino.symm
  · intro e _
    by_cases hino : e.2 = c.ino
    · rw [hino, Kernel.setData_data_self]
      exact hlonger
    · rw [Kernel.setData_data_of_ne hino]

/-- In the section, the recorded size changes, and perhaps a claim of the client's own is settled. -/
theorem Move.record (bytes : List UInt8) (h : Inv u s) (hin : Inside u s.1 i f) (hinfo : u.IsInfo s.1 ino)
    {p : List Pending} (hsub : ∀ c ∈ p, c ∈ s.2.pending)
    (hothers : ∀ c ∈ s.2.pending, c.client ≠ i → c ∈ p)
    (henough : u.counted (s.1, { s.2 with pending := p }) ≤ sizeIn bytes) :
    Move u i s (s.1.setData ino bytes, { s.2 with pending := p }) := by
  have hcounted : u.counted (s.1.setData ino bytes, { s.2 with pending := p }) =
      u.counted (s.1, { s.2 with pending := p }) :=
    Usage.counted_setData_of_not (s := (s.1, { s.2 with pending := p })) fun e he hino hx =>
      not_item_of_info h.wf hinfo he hino hx.1
  have hrecorded : u.recorded (s.1.setData ino bytes, { s.2 with pending := p }) = sizeIn bytes := by
    rw [Usage.recorded_eq (s := (s.1.setData ino bytes, { s.2 with pending := p })) (h.wf.setData _ _) hinfo,
      Kernel.setData_data_self]
  refine ⟨⟨h.wf.setData _ _, fun c hc => h.claim c (hsub c hc), ?_⟩, fun j hj => ⟨fun _ _ hx _ => hx,
    Nat.le_refl _, fun _ hx => hx, ?_, ?_, fun g hj' => absurd (h.inside_eq hin hj') hj⟩⟩
  · rw [hcounted, hrecorded]
    exact henough
  · exact fun c hc => ⟨fun hmem => hsub c hmem, fun hmem => hothers c hmem (by rw [hc]; exact hj)⟩
  · exact fun c hc _ => Kernel.setData_data_of_ne (h.claim_ne hc hinfo)

/-- Outside the section, what is written to `cache_info` leaves the recorded size as it is. -/
theorem Move.rewrite (bytes : List UInt8) (h : Inv u s) (hinfo : u.IsInfo s.1 ino)
    (hsame : sizeIn bytes = u.recorded s) (hlonger : (s.1.data ino).length ≤ bytes.length) :
    Move u i s (s.1.setData ino bytes, s.2) := by
  have hcounted : u.counted (s.1.setData ino bytes, s.2) = u.counted s :=
    Usage.counted_setData_of_not fun e he hino hx => not_item_of_info h.wf hinfo he hino hx.1
  have hrecorded : u.recorded (s.1.setData ino bytes, s.2) = u.recorded s := by
    rw [Usage.recorded_eq (s := (s.1.setData ino bytes, s.2)) (h.wf.setData _ _) hinfo,
      Kernel.setData_data_self, hsame]
  refine ⟨⟨h.wf.setData _ _, h.claim, ?_⟩, fun j hj => ⟨fun _ _ hx _ => hx, Nat.le_refl _, fun _ hx => hx,
    fun _ _ => Iff.rfl, ?_, fun _ _ => ⟨.refl _, fun _ he => he, fun _ hd => hd, hrecorded,
      Nat.le_of_eq hcounted, ?_, ?_⟩⟩⟩
  · rw [hcounted, hrecorded]
    exact h.enough
  · exact fun c hc _ => Kernel.setData_data_of_ne (h.claim_ne hc hinfo)
  · intro e _ hnot _
    apply Kernel.setData_data_of_ne
    rintro rfl
    exact hnot hinfo
  · intro e _
    by_cases hino : e.2 = ino
    · rw [hino, Kernel.setData_data_self]
      exact hlonger
    · rw [Kernel.setData_data_of_ne hino]

end Contents

/-- In the section, the client claims a file that it has locked. -/
theorem Move.claim (h : Inv u s) (hin : Inside u s.1 i f) {o : OpenFile} (ho : s.1.opened fd = some o)
    (hi : o.opener = i) (hlock : o.lock = some .exclusive) (hinfo : ¬ u.IsInfo s.1 o.ino) :
    Move u i s (s.1, { s.2 with pending := ⟨i, fd, o.ino⟩ :: s.2.pending }) := by
  refine ⟨⟨h.wf, ?_, ?_⟩, fun j hj => ⟨fun _ _ hx _ => hx, Nat.le_refl _, fun _ hx => hx, ?_,
    fun _ _ _ => rfl, fun g hj' => absurd (h.inside_eq hin hj') hj⟩⟩
  · intro c hc
    rcases List.mem_cons.mp hc with rfl | hc
    · exact ⟨o, ho, hi, rfl, hlock, hinfo⟩
    · exact h.claim c hc
  · exact Nat.le_trans (counted_anti fun c hc => List.mem_cons_of_mem _ hc) h.enough
  · intro c hc
    refine ⟨fun hmem => ?_, fun hmem => List.mem_cons_of_mem _ hmem⟩
    rcases List.mem_cons.mp hmem with rfl | hmem
    · exact absurd hc.symm hj
    · exact hmem

/-- The claims of the others, when those under a descriptor are given up. -/
def without (fd : Nat) (g : Ghost) : Ghost := { g with pending := g.pending.filter fun c => c.fd ≠ fd }

theorem mem_without {g : Ghost} {c : Pending} : c ∈ (without fd g).pending ↔ c ∈ g.pending ∧ c.fd ≠ fd := by
  rw [without, List.mem_filter, decide_eq_true_eq]

/-- The file counts for nothing. -/
def Weightless (u : Usage) (K : Kernel) (ino : Nat) : Prop :=
  (∀ e ∈ K.files, e.2 = ino → ¬ IsItem u.home e.1) ∨ K.data ino = []

/-- Claims to files that count for nothing. -/
theorem counted_without (hloose : ∀ c ∈ s.2.pending, c.fd = fd → Weightless u s.1 c.ino) :
    u.counted (s.1, without fd s.2) ≤ u.counted s := by
  apply List.sum_le_sum
  intro e he
  rw [Usage.weight, Usage.weight]
  split
  next hx =>
    split
    · exact Nat.le_refl _
    next hnot =>
      -- the file has a claim, which is given up
      have hclaim : ∃ c ∈ s.2.pending, c.ino = e.2 := by
        by_contra hnone
        exact hnot ⟨hx.1, fun c hc hino => hnone ⟨c, hc, hino⟩⟩
      obtain ⟨c, hc, hino⟩ := hclaim
      have hfd : c.fd = fd := by
        by_contra hne
        exact hx.2 c (mem_without.mpr ⟨hc, hne⟩) hino
      rcases hloose c hc hfd with hitem | hempty
      · exact absurd hx.1 (hitem e he hino.symm)
      · rw [← hino]
        exact Nat.le_of_eq (by rw [hempty]; rfl)
  · exact Nat.zero_le _

/-- The client gives up the claims under a descriptor of its own. -/
theorem Move.drop (h : Inv u s) {o : OpenFile} (ho : s.1.opened fd = some o) (hi : o.opener = i)
    (hloose : ∀ c ∈ s.2.pending, c.fd = fd → Weightless u s.1 c.ino) :
    Move u i s (s.1, without fd s.2) := by
  have hcounted := counted_without hloose
  refine ⟨⟨h.wf, fun c hc => h.claim c (mem_without.mp hc).1, Nat.le_trans hcounted h.enough⟩, fun j hj =>
    ⟨fun _ _ hx _ => hx, Nat.le_refl _, fun _ hx => hx, ?_, fun _ _ _ => rfl, fun _ _ => ⟨.refl _,
      fun _ he => he, fun c hc => (mem_without.mp hc).1, rfl, hcounted, fun _ _ _ _ => rfl,
      fun _ _ => Nat.le_refl _⟩⟩⟩
  intro c hc
  refine ⟨fun hmem => (mem_without.mp hmem).1, fun hmem => mem_without.mpr ⟨hmem, ?_⟩⟩
  rintro rfl
  obtain ⟨x, hx, hclient, -⟩ := h.claim c hmem
  rw [ho] at hx
  obtain rfl := Option.some.inj hx
  exact hj (hc.symm.trans (hclient.symm.trans hi))

/-- The client closes a descriptor of its own. -/
theorem Move.close (h : Inv u s) {o : OpenFile} (ho : s.1.opened fd = some o) (hi : o.opener = i)
    (hloose : ∀ c ∈ s.2.pending, c.fd = fd → Weightless u s.1 c.ino) :
    Move u i s (s.1.setOpen fd none, without fd s.2) := by
  have hdrop := Move.drop h ho hi hloose
  have hwf : (s.1.setOpen fd none).Wf := h.wf.setOpen (fun y hy => nomatch hy) (fun y hy => nomatch hy)
  have hd : Usage.Differs s.1 (s.1.setOpen fd none) fd none := ⟨rfl, rfl, rfl, rfl⟩
  refine hdrop.trans (.of_differs hdrop.inv hwf hd (Nat.le_refl _) ?_ ?_)
  · intro y hy
    have hy : s.1.opened fd = some y := hy
    rw [ho] at hy
    obtain rfl := Option.some.inj hy
    exact hi
  · rintro ⟨c, hc, hfd⟩
    exact absurd hfd (mem_without.mp hc).2

/-- What does not matter to the cache: folders are added, files are listed in another order, and access times
change. -/
theorem quiet (h : Inv u s) (hwf : K'.Wf) (hfiles : K'.files.Perm s.1.files)
    (hfolders : ∀ e ∈ s.1.folders, e ∈ K'.folders) (hopened : K'.opened = s.1.opened)
    (hnext : s.1.nextFd ≤ K'.nextFd) (hdata : ∀ ino, ino < s.1.nextIno → K'.data ino = s.1.data ino) :
    Inv u (K', s.2) ∧ ∀ j, Rely u j s (K', s.2) := by
  have hinfo : ∀ ino, u.IsInfo K' ino ↔ u.IsInfo s.1 ino := fun ino => hfiles.mem_iff
  have hfile : ∀ e ∈ s.1.files, K'.data e.2 = s.1.data e.2 :=
    fun e he => hdata e.2 (h.wf.entry_lt e (Kernel.mem_entries_of_file he))
  have hcounted : u.counted (K', s.2) = u.counted s := by
    rw [Usage.counted, Usage.counted, ← (hfiles.map _).sum_eq]
    congr 1
    apply List.map_congr_left
    intro e he
    rw [Usage.weight, Usage.weight, hfile e (hfiles.mem_iff.mp he)]
  have hrecorded : u.recorded (K', s.2) = u.recorded s := by
    by_cases hany : ∃ ino, u.IsInfo s.1 ino
    · obtain ⟨ino, hino⟩ := hany
      rw [Usage.recorded_eq h.wf hino, Usage.recorded_eq (s := (K', s.2)) hwf ((hinfo ino).mpr hino)]
      exact congrArg sizeIn (hfile _ hino)
    · rw [Usage.recorded_eq_zero h.wf fun ino hino => hany ⟨ino, hino⟩,
        Usage.recorded_eq_zero (s := (K', s.2)) hwf fun ino hino => hany ⟨ino, (hinfo ino).mp hino⟩]
  refine ⟨⟨hwf, ?_, by rw [hcounted, hrecorded]; exact h.enough⟩, fun j => ⟨?_, hnext, fun ino hino =>
    (hinfo ino).mpr hino, fun _ _ => Iff.rfl, ?_, fun _ _ => ⟨hfiles, hfolders, fun _ hc => hc, hrecorded,
      Nat.le_of_eq hcounted, fun e he _ _ => hfile e he, fun e he => Nat.le_of_eq (by rw [hfile e he])⟩⟩⟩
  · intro c hc
    obtain ⟨x, hx, hclient, hino, hlock, hnot⟩ := h.claim c hc
    exact ⟨x, by rw [hopened]; exact hx, hclient, hino, hlock, by rwa [hinfo]⟩
  · intro g x hx _
    rw [hopened]
    exact hx
  · intro c hc _
    obtain ⟨x, hx, -, hino, -⟩ := h.claim c hc
    rw [← hino]
    exact hdata _ (h.wf.ino_lt _ x hx)

end Moves

end Faulty

end Skunk.BesUtils
