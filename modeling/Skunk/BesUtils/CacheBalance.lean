import Skunk.BesUtils.CacheRuns

/-!
# Whether the recorded size is right

The recorded size is read, changed and written by clients that hold the lock of the cache. Where each has
its own descriptor for `cache_info`, it is the total size of the items, but for those that a `PutItem`
still holds. It goes wrong in two ways: `initialize` writes the zero of a new `cache_info` without the
lock, and threads that share one object share the descriptor that the lock belongs to.
-/

namespace Skunk.BesUtils

open Effect Posix

namespace Usage

variable {u : Usage} {may : CacheOp → Prop} {i : Nat} {s : View}
  {a b : Config sysCalls Kernel Session}

/-! ## The sizes between operations -/

/-- All items count, once all claims are settled. -/
theorem itemBytes_eq (hinv : u.Inv s) (hacc : u.accounts = true) :
    itemBytes u.home s.1 = u.counted s + (s.2.pending.map fun c => (s.1.data c.ino).length).sum := by
  have hbooks := hinv.books hacc
  have hall : ∀ p : List Pending, (∀ c ∈ p, c ∈ s.2.pending) → (p.map Pending.ino).Nodup →
      itemBytes u.home s.1 = u.counted (s.1, { s.2 with pending := p }) +
        (p.map fun c => (s.1.data c.ino).length).sum := by
    intro p hp hnodup
    induction p with
    | nil =>
        rw [List.map_nil, List.sum_nil, Nat.add_zero]
        exact (counted_nil s.1 s.2.holder).symm
    | cons c p ih =>
        rw [List.map_cons, List.nodup_cons] at hnodup
        obtain ⟨o, n, -, -, -, -, -, hfile, hn⟩ := hbooks.claim c (hp c List.mem_cons_self)
        have hothers : ∀ d, d ∈ p ↔ d ∈ c :: p ∧ d.ino ≠ c.ino := by
          intro d
          rw [List.mem_cons]
          constructor
          · intro hd
            exact ⟨.inr hd, fun hino => hnodup.1 (List.mem_map.mpr ⟨d, hd, hino⟩)⟩
          · rintro ⟨rfl | hd, hino⟩
            · exact absurd rfl hino
            · exact hd
        have hsettle : u.counted (s.1, { s.2 with pending := p }) =
            u.counted (s.1, { s.2 with pending := c :: p }) + (s.1.data c.ino).length :=
          counted_settle (s := (s.1, { s.2 with pending := c :: p })) hinv.wf List.mem_cons_self hfile hn
            hothers
        rw [ih (fun d hd => hp d (List.mem_cons_of_mem c hd)) hnodup.2, hsettle, List.map_cons,
          List.sum_cons]
        omega
  exact hall s.2.pending (fun _ hc => hc) hbooks.distinct

/-- Without `PutItem`s, the recorded size is that of all items while nobody is in the section. -/
theorem recorded_of_free (hinv : u.Inv s) (hacc : u.accounts = true) (hlends : u.lends = false)
    (hfree : s.2.holder = none) : recordedSize u.home s.1 = itemBytes u.home s.1 := by
  have hpending : s.2.pending = [] := hinv.unused (.inr hlends)
  have hbalance : recordedSize u.home s.1 = u.counted s := (hinv.books hacc).balance hfree
  rw [itemBytes_eq hinv hacc, hbalance, hpending]
  rfl

/-- The live `PutItem`s, each with its process. -/
def Live (a : Config sysCalls Kernel Session) (l : List (Nat × Nat)) : Prop :=
  l.Nodup ∧ ∀ i fd, (i, fd) ∈ l ↔ ∃ t, a.tasks i = .idle t ∧ fd ∈ t.putItems

def openSize (K : Kernel) (fd : Nat) : Nat :=
  match K.opened fd with
  | some o => (K.data o.ino).length
  | none => 0

section Quiescent

variable {g : Ghost} (h : Coupled (u.system may) u.protocol (Idle u) a g)
  (hquiet : System.Quiescent a)
include h hquiet

/-- Between operations nobody is in the section. -/
theorem holder_of_quiescent : g.holder = none := by
  rw [Option.eq_none_iff_forall_ne_some]
  rintro ⟨j, f⟩ hj
  obtain ⟨t, htask⟩ := hquiet.idle j
  exact (h.idle_of htask).ready.out f hj

/-- The pending files are those of the live `PutItem`s. -/
theorem live_of_quiescent (hacc : u.accounts = true) :
    Live a (g.pending.map fun c => (c.client, c.fd)) := by
  constructor
  · refine (h.inv.books hacc).distinct.of_map.map_on ?_
    intro c hc d hd heq
    have hfd : c.fd = d.fd := congrArg Prod.snd heq
    obtain ⟨o, -, ho, -, -, hino, -⟩ := (h.inv.books hacc).claim c hc
    obtain ⟨o', -, ho', -, -, hino', -⟩ := (h.inv.books hacc).claim d hd
    rw [hfd, ho'] at ho
    obtain rfl := Option.some.inj ho
    exact List.inj_on_of_nodup_map (h.inv.books hacc).distinct hc hd (hino.symm.trans hino')
  · intro i fd
    rw [List.mem_map]
    constructor
    · rintro ⟨c, hc, heq⟩
      obtain ⟨rfl, rfl⟩ := Prod.mk.inj heq
      obtain ⟨t, htask⟩ := hquiet.idle c.client
      exact ⟨t, htask, (h.idle_of htask).claims c hc rfl⟩
    · rintro ⟨t, htask, hfd⟩
      obtain ⟨o, -, -, hclaim⟩ := (h.idle_of htask).putItems fd hfd
      exact ⟨_, hclaim hacc, rfl⟩

/-- Between operations, the recorded size and the sizes of the files of live `PutItem`s make up all
items. -/
theorem sizes_of_quiescent (hacc : u.accounts = true) :
    ∃ l, Live a l ∧ recordedSize u.home a.world + (l.map fun p => openSize a.world p.2).sum =
      itemBytes u.home a.world := by
  refine ⟨_, live_of_quiescent h hquiet hacc, ?_⟩
  have hbooks := h.inv.books hacc
  have hbalance : recordedSize u.home a.world = u.counted (a.world, g) :=
    hbooks.balance (holder_of_quiescent h hquiet)
  rw [itemBytes_eq (s := (a.world, g)) h.inv hacc, hbalance, List.map_map]
  congr 2
  apply List.map_congr_left
  intro c hc
  obtain ⟨o, -, ho, -, -, hino, -⟩ := hbooks.claim c hc
  have ho : a.world.opened c.fd = some o := ho
  show openSize a.world c.fd = (a.world.data c.ino).length
  rw [openSize, ho, ← hino]

/-- Without `PutItem`s, the recorded size is that of all items. -/
theorem recorded_of_quiescent (hacc : u.accounts = true) (hlends : u.lends = false) :
    recordedSize u.home a.world = itemBytes u.home a.world :=
  recorded_of_free (s := (a.world, g)) h.inv hacc hlends (holder_of_quiescent h hquiet)

end Quiescent

/-- What holds when a run of the clients has led somewhere. -/
theorem coupled_of_reaches {cond : Nat → (c : SysCall) → Kernel → c.Reply → Prop}
    (hmay : ∀ op, may op → Allowed u op) (hcond : ∀ i c K r, cond i c K r → u.Tidy i c K r)
    (hstarts : Starts u a) (hreach : ((clients may).restrict cond).Reaches a b) :
    ∃ g, Coupled (u.system may) u.protocol (Idle u) b g := by
  refine hreach.preserves (P := fun c => ∃ g, Coupled (u.system may) u.protocol (Idle u) c g) ?_
    ⟨_, hstarts.coupled⟩
  rintro c e d ⟨g, hc⟩ hstep
  obtain ⟨g', hd, -⟩ := (obligations hmay).step hc (step_of_clients hcond hstep)
  exact ⟨g', hd⟩

/-! ## Processes in a cache that is there -/

def WritesSucceed : Nat → (c : SysCall) → Kernel → c.Reply → Prop
  | _, .write _ bytes, _, r => r = some bytes.length
  | _, _, _, _ => True

instance : ∀ i c K r, Decidable (WritesSucceed i c K r)
  | _, .write _ bytes, _, r => inferInstanceAs (Decidable (r = some bytes.length))
  | _, .stat _, _, _ | _, .mkdirP _, _, _ | _, .create _, _, _ | _, .openRead _, _, _
  | _, .openWrite _, _, _ | _, .close _, _, _ | _, .flock _ _ _, _, _ | _, .unlock _, _, _
  | _, .futimes _, _, _ | _, .seek _ _, _, _ | _, .read _ _, _, _ | _, .fstat _, _, _
  | _, .remove _, _, _ | _, .readdir _, _, _ | _, .source _, _, _ | _, .subtract _ _, _, _ =>
    instDecidableTrue

/-- In a cache that is there and shared by no threads, that is all there is to ask. -/
theorem tidy_of_writesSucceed {u : Usage} (hprepared : u.prepared = true) (hshared : u.shared = none)
    {i : Nat} {c : SysCall} {K : Kernel} {r : c.Reply} (h : WritesSucceed i c K r) : u.Tidy i c K r := by
  cases c with
  | write =>
      refine fun _ => ⟨h, ?_⟩
      rw [hprepared]
      exact nofun
  | flock =>
      show u.shared = _ → _
      rw [hshared]
      exact nofun
  | _ => trivial

/-- All operations of a cache that is there, but for `clear`. -/
def SizedUse : CacheOp → Prop
  | .initCache _ _ _ | .clear => False
  | .put key _ | .putData key _ | .putItem key | .del key => IsKey key
  | _ => True

instance : DecidablePred SizedUse
  | .put key _ | .putData key _ | .putItem key | .del key => inferInstanceAs (Decidable (IsKey key))
  | .initCache _ _ _ | .clear => isFalse id
  | .writePutItem _ _ | .seekPutItem _ _ | .destroyPutItem _ | .destroyEmptyPutItem | .get _
  | .closeItem _ | .purge => isTrue trivial

/-- Nobody is busy, and each object of a process has its own descriptor for the `cache_info` of the directory, or
none. -/
def Sharing (dir : Text) (a : Config sysCalls Kernel Session) : Prop :=
  ∀ i, ∃ t, a.tasks i = .idle t ∧ t.putItems = [] ∧ t.items = [] ∧
    ∀ f, t.cache.cacheInfoFd = some f → t.cache.cacheDir = dir ∧
      ∃ o, a.world.opened f = some o ∧ o.opener = i ∧ (resolve dir ++ [cacheInfoName], o.ino) ∈ a.world.files

/-- In a directory with nothing but a `cache_info` that says zero the sizes are right. -/
theorem starts_of_empty {dir : Text} {lends : Bool} (hdir : '\x00' ∉ dir) (hwf : a.world.Wf) {info : Nat}
    (hinfo : (resolve dir ++ [cacheInfoName], info) ∈ a.world.files)
    (hempty : ∀ n ino, (resolve dir ++ [n], ino) ∈ a.world.entries → n = cacheInfoName)
    (hzero : recordedSize (resolve dir) a.world = 0)
    (hunlocked : ∀ fd o, a.world.opened fd = some o →
      (resolve dir ++ [cacheInfoName], o.ino) ∈ a.world.files → o.lock = none)
    (hsharing : Sharing dir a) : Starts ⟨dir, none, true, true, lends, hdir⟩ a where
  wf := hwf
  unlocked := hunlocked
  idle := by
    intro i
    obtain ⟨t, htask, hput, hitems, hfd⟩ := hsharing i
    refine ⟨t, htask, hput, hitems, fun f hf => ?_⟩
    obtain ⟨hcache, o, ho, hopener, hfile⟩ := hfd f hf
    exact ⟨hcache, o, ho, hfile, .inr ⟨rfl, hopener⟩⟩
  noFolder := by
    intro _ _ n ino hfolder
    obtain rfl := hempty n ino (List.mem_append_right _ hfolder)
    -- a location is a file or a folder
    have hnodup := hwf.locations
    rw [Kernel.entries, List.map_append, List.nodup_append] at hnodup
    exact hnodup.2.2 _ (List.mem_map.mpr ⟨_, hinfo, rfl⟩) _ (List.mem_map.mpr ⟨_, hfolder, rfl⟩) rfl
  balanced := by
    intro _
    refine hzero.trans (Eq.symm ?_)
    show itemBytes (resolve dir) a.world = 0
    rw [itemBytes, List.sum_eq_zero_iff]
    intro n hn
    obtain ⟨e, he, rfl⟩ := List.mem_map.mp hn
    rw [if_neg]
    intro hitem
    obtain ⟨n, hloc, hne⟩ := isItem_iff.mp hitem
    exact hne (hempty n e.2 (List.mem_append_left _ (by rw [← hloc]; exact he)))

/-- An empty cache that has been initialised: each process has its own descriptor for `cache_info`, or
none. -/
structure FreshCache (dir : Text) (a : Config sysCalls Kernel Session) : Prop where
  wf : a.world.Wf
  info : ∃ ino, (resolve dir ++ [cacheInfoName], ino) ∈ a.world.files ∧ a.world.data ino = encodeSize 0
  empty : ∀ n ino, (resolve dir ++ [n], ino) ∈ a.world.entries → n = cacheInfoName
  unlocked : ∀ fd o, a.world.opened fd = some o →
    (resolve dir ++ [cacheInfoName], o.ino) ∈ a.world.files → o.lock = none
  objects : Sharing dir a

theorem FreshCache.starts {dir : Text} (h : FreshCache dir a) (hdir : '\x00' ∉ dir) :
    Starts ⟨dir, none, true, true, true, hdir⟩ a := by
  obtain ⟨info, hinfo, hdata⟩ := h.info
  refine starts_of_empty hdir h.wf hinfo h.empty ?_ h.unlocked h.objects
  rw [recordedSize_eq (h.wf.lookup_files.mpr hinfo), hdata]
  rfl

/-- In every run of processes that share a cache, what `del` and `purge` subtract from the recorded size
is not more than it, and between operations the recorded size and the sizes of the files of live
`PutItem`s make up all items. -/
theorem sizes_agree {dir : Text} (hdir : '\x00' ∉ dir) (hfresh : FreshCache dir a)
    (hreach : ((clients SizedUse).restrict WritesSucceed).Reaches a b) :
    (∀ i x y k, b.tasks i = .busy (SysCall.subtract x y) k →
      x = recordedSize (resolve dir) b.world ∧ y ≤ x) ∧
    (System.Quiescent b → ∃ l, Live b l ∧
      recordedSize (resolve dir) b.world + (l.map fun p => openSize b.world p.2).sum =
        itemBytes (resolve dir) b.world) := by
  let u : Usage := ⟨dir, none, true, true, true, hdir⟩
  have hallowed : ∀ op, SizedUse op → Allowed u op := by
    intro op hop
    cases op with
    | initCache | clear => exact hop.elim
    | put | putData | del => exact fun _ => hop
    | putItem key => exact ⟨fun _ => hop, fun _ => ⟨rfl, rfl⟩⟩
    | purge => exact fun _ => rfl
    | writePutItem | seekPutItem | destroyPutItem | destroyEmptyPutItem | get | closeItem => trivial
  have htidy : ∀ i c K r, WritesSucceed i c K r → u.Tidy i c K r := fun _ _ _ _ =>
    tidy_of_writesSucceed rfl rfl
  obtain ⟨g, hg⟩ := coupled_of_reaches hallowed htidy (hfresh.starts hdir) hreach
  constructor
  · intro i x y k htask
    exact hg.safe htask rfl
  · exact fun hquiet => sizes_of_quiescent hg hquiet rfl

/-- A kernel with an empty cache in its only folder. -/
def emptyCache : Kernel where
  files := [([['c'], cacheInfoName], 2)]
  folders := [([], 0), ([['c']], 1)]
  data := fun ino => if ino = 2 then encodeSize 0 else []
  atime := fun _ => 0
  opened := fun _ => none
  nextIno := 3
  nextFd := 0
  now := 0
  sources := fun _ => none

theorem wf_emptyCache : emptyCache.Wf :=
  Kernel.wf_of_closed (fun _ => rfl) (by decide) (by decide) (by decide) (by decide)

/-- Two processes that have initialised the cache. -/
def twoProcesses : Config sysCalls Kernel Session where
  world := (emptyCache.addOpen 0 2).addOpen 1 2
  tasks := fun i => .idle
    { Session.new with cache := ⟨['/', 'c'], 0, 0, if i < 2 then some i else none⟩ }

theorem fresh_twoProcesses : FreshCache ['/', 'c'] twoProcesses where
  wf := (wf_emptyCache.addOpen 0 (by decide)).addOpen 1 (by decide)
  info := ⟨2, List.mem_cons_self, rfl⟩
  empty := by
    intro n ino hmem
    have hlocs : [['c'], n] ∈ twoProcesses.world.entries.map Prod.fst :=
      List.mem_map.mpr ⟨_, hmem, rfl⟩
    simpa [twoProcesses, emptyCache, Kernel.addOpen, Kernel.entries] using hlocs
  unlocked := by
    intro fd o ho _
    rcases fd with _ | _ | fd
    · obtain rfl := Option.some.inj ho
      rfl
    · obtain rfl := Option.some.inj ho
      rfl
    · cases ho
  objects := by
    intro i
    refine ⟨_, rfl, rfl, rfl, fun f hf => ⟨rfl, ⟨2, 0, none, i⟩, ?_, rfl, List.mem_cons_self⟩⟩
    rcases i with _ | _ | i
    · obtain rfl := Option.some.inj hf
      rfl
    · obtain rfl := Option.some.inj hf
      rfl
    · cases hf

/-- While the first process holds a `PutItem`, the second puts another item and purges the cache. -/
theorem sizes_agree_two : ∃ b, recordedSize [['c']] b.world = 0 ∧ itemBytes [['c']] b.world = 2 ∧
    ∃ l, Live b l ∧ recordedSize [['c']] b.world + (l.map fun p => openSize b.world p.2).sum =
      itemBytes [['c']] b.world := by
  obtain ⟨steps, hrun, hquiet, hsizes⟩ := System.exists_quiescent
    ((clients SizedUse).restrict WritesSucceed) twoProcesses
    ((0, some (.putItem ['a'])) :: List.replicate 5 (0, none) ++
      (0, some (.writePutItem 2 [1, 2])) :: List.replicate 1 (0, none) ++
      (1, some (.putData ['b'] [3])) :: List.replicate 12 (1, none) ++
      (1, some .purge) :: List.replicate 15 (1, none)) [0, 1]
    (p := fun steps => recordedSize [['c']] (System.last twoProcesses steps).world = 0 ∧
      itemBytes [['c']] (System.last twoProcesses steps).world = 2)
    (by decide) (fun _ => rfl) (by decide)
  have hsizes := of_decide_eq_true hsizes
  exact ⟨_, hsizes.1, hsizes.2,
    (sizes_agree (by decide) fresh_twoProcesses ⟨steps, hrun, rfl⟩).2 hquiet⟩

/-! ## Processes that initialise the cache -/

/-- Processes that initialise a cache in one directory and then put and delete items. -/
def InitUse (dir : Text) : CacheOp → Prop
  | .initCache cacheDir _ _ => cacheDir = dir
  | .put key _ | .putData key _ | .del key => IsKey key
  | _ => False

instance (dir : Text) : DecidablePred (InitUse dir)
  | .initCache cacheDir _ _ => inferInstanceAs (Decidable (cacheDir = dir))
  | .put key _ | .putData key _ | .del key => inferInstanceAs (Decidable (IsKey key))
  | .putItem _ | .writePutItem _ _ | .seekPutItem _ _ | .destroyPutItem _ | .destroyEmptyPutItem | .get _
  | .closeItem _ | .clear | .purge => isFalse id

/-- No write fails, and what is written to `cache_info` without its lock is written while the recorded
size is zero. -/
def TimelyZero (home : List Text) : Nat → (c : SysCall) → Kernel → c.Reply → Prop
  | _, .write fd bytes, K, r => r = some bytes.length ∧
    ∀ o, K.opened fd = some o → (home ++ [cacheInfoName], o.ino) ∈ K.files → o.lock = none →
      recordedSize home K = 0
  | _, _, _, _ => True

instance (home : List Text) : ∀ i c K r, Decidable (TimelyZero home i c K r)
  | _, .write fd bytes, K, r => inferInstanceAs (Decidable (r = some bytes.length ∧
    ∀ o ∈ K.opened fd, (home ++ [cacheInfoName], o.ino) ∈ K.files → o.lock = none →
      recordedSize home K = 0))
  | _, .stat _, _, _ | _, .mkdirP _, _, _ | _, .create _, _, _ | _, .openRead _, _, _
  | _, .openWrite _, _, _ | _, .close _, _, _ | _, .flock _ _ _, _, _ | _, .unlock _, _, _
  | _, .futimes _, _, _ | _, .seek _ _, _, _ | _, .read _ _, _, _ | _, .fstat _, _, _
  | _, .remove _, _, _ | _, .readdir _, _, _ | _, .source _, _, _ | _, .subtract _ _, _, _ =>
    instDecidableTrue

/-- If each process that creates `cache_info` writes its zero before another has recorded a size, no
update is lost: once all are idle, the recorded size is the size of all items. -/
theorem sizes_agree_of_timelyZero {dir : Text} (hdir : '\x00' ∉ dir) (hwf : a.world.Wf)
    (hclosed : ∀ fd, a.world.opened fd = none) (hnew : ∀ i, a.tasks i = .idle .new)
    (hbalanced : recordedSize (resolve dir) a.world = itemBytes (resolve dir) a.world)
    (hreach : ((clients (InitUse dir)).restrict (TimelyZero (resolve dir))).Reaches a b)
    (hquiet : System.Quiescent b) :
    recordedSize (resolve dir) b.world = itemBytes (resolve dir) b.world := by
  let u : Usage := ⟨dir, none, true, false, false, hdir⟩
  have hstarts : Starts u a := starts_of_closed hwf hclosed hnew (fun _ => rfl) fun _ => hbalanced
  have hallowed : ∀ op, InitUse dir op → Allowed u op := by
    intro op hop
    cases op with
    | initCache cacheDir _ _ => exact ⟨hop, rfl, fun _ => rfl⟩
    | put | putData | del => exact fun _ => hop
    | putItem | clear | purge => exact hop.elim
    | writePutItem | seekPutItem | destroyPutItem | destroyEmptyPutItem | get | closeItem => trivial
  have htidy : ∀ i c K r, TimelyZero (resolve dir) i c K r → u.Tidy i c K r := by
    intro i c K r hr
    cases c with
    | write => exact fun _ => ⟨hr.1, fun _ => hr.2⟩
    | flock => exact nofun
    | _ => trivial
  obtain ⟨g, hg⟩ := coupled_of_reaches hallowed htidy hstarts hreach
  exact recorded_of_quiescent hg hquiet rfl rfl

/-- Two processes in a directory where there is no cache yet. -/
def newcomers : Config sysCalls Kernel Session := ⟨oneFolder, fun _ => .idle .new⟩

/-- One process after the other. -/
theorem sizes_agree_of_timelyZero_two : ∃ b : Config sysCalls Kernel Session, itemBytes [['c']] b.world = 2 ∧
    recordedSize [['c']] b.world = itemBytes [['c']] b.world := by
  obtain ⟨steps, hrun, hquiet, hsize⟩ := System.exists_quiescent
    ((clients (InitUse ['/', 'c'])).restrict (TimelyZero [['c']])) newcomers
    ((0, some (.initCache ['/', 'c'] 10 5)) :: List.replicate 3 (0, none) ++
      (1, some (.initCache ['/', 'c'] 10 5)) :: List.replicate 3 (1, none) ++
      (0, some (.putData ['a'] [1, 2])) :: List.replicate 12 (0, none)) [0, 1]
    (p := fun steps => itemBytes [['c']] (System.last newcomers steps).world = 2)
    (by decide) (fun _ => rfl) (by decide)
  have hsize := of_decide_eq_true hsize
  exact ⟨_, hsize, sizes_agree_of_timelyZero (by decide) wf_oneFolder (fun _ => rfl) (fun _ => rfl) rfl
    ⟨steps, hrun, rfl⟩ hquiet⟩

/-- The process that creates `cache_info` writes its zero after the other has put five bytes and recorded
them. -/
theorem recordedSize_lost : ∃ steps,
    ((clients (InitUse ['/', 'c'])).restrict WritesSucceed).Run newcomers steps ∧
    System.Quiescent (System.last newcomers steps) ∧
    recordedSize [['c']] (System.last newcomers steps).world = 0 ∧
    itemBytes [['c']] (System.last newcomers steps).world = 5 := by
  obtain ⟨steps, hrun, hquiet, hsizes⟩ := System.exists_quiescent
    ((clients (InitUse ['/', 'c'])).restrict WritesSucceed) newcomers
    ((0, some (.initCache ['/', 'c'] 10 5)) :: List.replicate 2 (0, none) ++
      (1, some (.initCache ['/', 'c'] 10 5)) :: List.replicate 3 (1, none) ++
      (1, some (.putData ['a'] [1, 2, 3, 4, 5])) :: List.replicate 12 (1, none) ++ [(0, none)]) [0, 1]
    (p := fun steps => recordedSize [['c']] (System.last newcomers steps).world = 0 ∧
      itemBytes [['c']] (System.last newcomers steps).world = 5)
    (by decide) (fun _ => rfl) (by decide)
  have hsizes := of_decide_eq_true hsizes
  exact ⟨steps, hrun, hquiet, hsizes.1, hsizes.2⟩

end Usage

end Skunk.BesUtils
