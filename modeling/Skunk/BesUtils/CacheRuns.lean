import Skunk.BesUtils.CacheOutside
import Skunk.BesUtils.CachePurge

/-!
# Runs of clients that share a cache

Every operation of a client keeps the protocol (`run_keeps`), so the protocol is kept in every run of any
number of clients. Three questions about such runs are answered from it: whether the lock of the cache
and the locks of the items can block each other, whether the recorded size stays right, and what becomes
of both when the clients share a descriptor or `cache_info` is created while others use it.
-/

namespace Skunk.BesUtils

open Effect Posix

namespace Usage

variable {u : Usage} {may : CacheOp → Prop} {i : Nat} {t : Session} {s s' : View}

/-- The operations that go with a usage. -/
def Allowed (u : Usage) : CacheOp → Prop
  | .initCache cacheDir _ _ =>
    cacheDir = u.dir ∧ u.shared = none ∧ (u.accounts = true → u.prepared = false)
  | .put key _ | .putData key _ | .del key => Proper u key
  | .putItem key => Proper u key ∧ (u.accounts = true → u.prepared = true ∧ u.lends = true)
  | .purge => u.accounts = true → u.prepared = true
  | .clear => u.accounts = false
  | _ => True

/-- What holds of a process that is not busy: it has all its descriptors, and the pending files of the
process are those of its `PutItem`s. -/
structure Idle (u : Usage) (i : Nat) (t : Session) (s : View) : Prop where
  ready : Ready u i t.cache s
  started : u.accounts = true → t.putItems ≠ [] → u.prepared = true ∧ t.cache.cacheInfoFd ≠ none
  nodup : (t.putItems ++ t.items).Nodup
  apart : ∀ fd ∈ t.putItems ++ t.items, t.cache.cacheInfoFd ≠ some fd
  putItems : ∀ fd ∈ t.putItems, ∃ o, Own u i fd o s ∧ o.lock = some .exclusive ∧
    (u.accounts = true → ⟨i, fd, o.ino⟩ ∈ s.2.pending)
  items : ∀ fd ∈ t.items, ∃ o, Own u i fd o s
  claims : ∀ c ∈ s.2.pending, c.client = i → c.fd ∈ t.putItems

theorem Idle.answer (h : Idle u i t s) (answer : Bool) : Idle u i { t with answer := answer } s :=
  ⟨h.ready, h.started, h.nodup, h.apart, h.putItems, h.items, h.claims⟩

theorem Idle.leaves (h : Idle u i t s) (hleaves : Leaves u i t.cache.cacheInfoFd none s s') :
    Idle u i t s' where
  ready := ⟨hleaves.out, fun f hf => hleaves.info f hf (h.ready.info f hf), h.ready.dir⟩
  started := h.started
  nodup := h.nodup
  apart := h.apart
  putItems := by
    intro fd hfd
    obtain ⟨o, hown, hlock, hclaim⟩ := h.putItems fd hfd
    refine ⟨o, hleaves.own fd o nofun (h.apart fd (List.mem_append_left _ hfd)) hown, hlock, ?_⟩
    exact fun hacc => (hleaves.claims _ rfl nofun).mpr (hclaim hacc)
  items := by
    intro fd hfd
    obtain ⟨o, hown⟩ := h.items fd hfd
    exact ⟨o, hleaves.own fd o nofun (h.apart fd (List.mem_append_right _ hfd)) hown⟩
  claims := fun c hc hi => h.claims c ((hleaves.claims c hi nofun).mp hc) hi

theorem Idle.rely (h : Idle u i t s) (hrely : u.Rely i s s') : Idle u i t s' :=
  h.leaves (.of_rely h.ready.out hrely none)

/-- A new descriptor of the client is none of those that the process has. -/
theorem Idle.fresh (h : Idle u i t s) {fd : Nat} (hfresh : Fresh u i fd s) :
    fd ∉ t.putItems ++ t.items := by
  intro hmem
  rcases List.mem_append.mp hmem with hmem | hmem
  · obtain ⟨o, hown, -⟩ := h.putItems fd hmem
    exact hfresh o hown
  · obtain ⟨o, hown⟩ := h.items fd hmem
    exact hfresh o hown

/-- What an operation leaves that returns nothing but its success. -/
theorem Idle.answered {p : Sys Bool} (h : Idle u i t s) (hinv : u.Inv s)
    (hp : Keeps u may i p (fun _ s' => Leaves u i t.cache.cacheInfoFd none s s') s) :
    Keeps u may i (do
      let result ← p
      pure { t with answer := result }) (Idle u i) s := by
  refine hp.andThen hinv ?_
  intro result s1 _ hleaves
  exact keeps_pure fun s2 hrely _ => ((h.leaves hleaves).rely hrely).answer result

/-- A client that has a new `PutItem` is idle again. -/
theorem Idle.putItem {result : Bool × Option Nat} (h : Idle u i t s)
    (hprep : u.accounts = true → u.prepared = true)
    (hdone : PutDone u i t.cache.cacheInfoFd s result.2 s') :
    Idle u i { t with putItems := result.2.toList ++ t.putItems, answer := result.1 } s' := by
  obtain ⟨answer, r⟩ := result
  cases hdone with
  | failed leaves => exact (h.leaves leaves).answer answer
  | @done f fd o _ hinfo held leaves =>
      have hnew := h.fresh held.fresh
      have hne : t.cache.cacheInfoFd ≠ some fd := by
        rw [hinfo]
        exact fun heq => held.ne (Option.some.inj heq).symm
      -- the new descriptor is none of those that the process has
      have hother : ∀ g ∈ t.putItems ++ t.items, some fd ≠ some g := by
        rintro g hg ⟨⟩
        exact hnew hg
      refine ⟨⟨leaves.out, fun g hg => leaves.info g hg (h.ready.info g hg), h.ready.dir⟩, ?_,
        List.nodup_cons.mpr ⟨hnew, h.nodup⟩, ?_, ?_, ?_, ?_⟩
      · intro hacc _
        show u.prepared = true ∧ t.cache.cacheInfoFd ≠ none
        rw [hinfo]
        exact ⟨hprep hacc, nofun⟩
      · intro g hg
        rcases List.mem_cons.mp hg with rfl | hg
        · exact hne
        · exact h.apart g hg
      · intro g hg
        rcases List.mem_cons.mp hg with rfl | hg
        · exact ⟨o, held.own, held.excl, held.claim⟩
        · obtain ⟨x, hx, hlock, hclaim⟩ := h.putItems g hg
          have hmem := List.mem_append_left t.items hg
          refine ⟨x, leaves.own g x (hother g hmem) (h.apart g hmem) hx, hlock, fun hacc => ?_⟩
          exact (leaves.claims ⟨i, g, x.ino⟩ rfl (hother g hmem)).mpr (hclaim hacc)
      · intro g hg
        obtain ⟨x, hx⟩ := h.items g hg
        have hmem := List.mem_append_right t.putItems hg
        exact ⟨x, leaves.own g x (hother g hmem) (h.apart g hmem) hx⟩
      · intro c hc hi
        show c.fd ∈ fd :: t.putItems
        -- a pending file is the new one, or it was pending before
        by_cases hfd : c.fd = fd
        · rw [hfd]
          exact List.mem_cons_self
        · refine List.mem_cons_of_mem _ (h.claims c ((leaves.claims c hi ?_).mp hc) hi)
          exact fun heq => hfd (Option.some.inj heq).symm

theorem Idle.get {result : Bool × Option Nat} (h : Idle u i t s)
    (hdone : GetDone u i t.cache.cacheInfoFd s result.2 s') :
    Idle u i { t with items := result.2.toList ++ t.items, answer := result.1 } s' := by
  obtain ⟨answer, r⟩ := result
  cases hdone with
  | failed leaves => exact (h.leaves leaves).answer answer
  | @done f fd o _ hinfo ne own fresh leaves =>
      have hidle := h.leaves leaves
      have hnew := h.fresh fresh
      have hne : t.cache.cacheInfoFd ≠ some fd := by
        rw [hinfo]
        exact fun heq => ne (Option.some.inj heq).symm
      have hperm : (t.putItems ++ fd :: t.items).Perm (fd :: (t.putItems ++ t.items)) :=
        List.perm_middle
      refine ⟨hidle.ready, hidle.started, hperm.nodup_iff.mpr (List.nodup_cons.mpr ⟨hnew, h.nodup⟩), ?_,
        hidle.putItems, ?_, hidle.claims⟩
      · intro g hg
        rcases List.mem_cons.mp (hperm.mem_iff.mp hg) with rfl | hg
        · exact hne
        · exact h.apart g hg
      · intro g hg
        rcases List.mem_cons.mp hg with rfl | hg
        · exact ⟨o, own⟩
        · exact hidle.items g hg

/-- A `PutItem` is gone. -/
theorem Idle.destroyed {fd : Nat} (h : Idle u i t s) (hfd : fd ∈ t.putItems)
    (hleaves : Leaves u i t.cache.cacheInfoFd (some fd) s s')
    (hfree : ∀ c ∈ s'.2.pending, c.client = i → c.fd ≠ fd) (answer : Bool) :
    Idle u i { t with putItems := t.putItems.erase fd, answer := answer } s' := by
  have hnodup : t.putItems.Nodup := h.nodup.of_append_left
  have hkept : ∀ g ∈ t.putItems.erase fd, g ∈ t.putItems ∧ some fd ≠ some g := by
    intro g hg
    obtain ⟨hne, hmem⟩ := hnodup.mem_erase_iff.mp hg
    exact ⟨hmem, fun heq => hne (Option.some.inj heq).symm⟩
  refine ⟨⟨hleaves.out, fun g hg => hleaves.info g hg (h.ready.info g hg), h.ready.dir⟩,
    fun hacc _ => h.started hacc (List.ne_nil_of_mem hfd),
    (List.erase_sublist.append_right t.items).nodup h.nodup, ?_, ?_, ?_, ?_⟩
  · exact fun g hg => h.apart g ((List.erase_sublist.append_right t.items).subset hg)
  · intro g hg
    obtain ⟨hmem, hne⟩ := hkept g hg
    obtain ⟨x, hx, hlock, hclaim⟩ := h.putItems g hmem
    refine ⟨x, hleaves.own g x hne (h.apart g (List.mem_append_left _ hmem)) hx, hlock, fun hacc => ?_⟩
    exact (hleaves.claims ⟨i, g, x.ino⟩ rfl hne).mpr (hclaim hacc)
  · intro g hg
    obtain ⟨x, hx⟩ := h.items g hg
    refine ⟨x, hleaves.own g x ?_ (h.apart g (List.mem_append_right _ hg)) hx⟩
    rintro ⟨⟩
    exact (List.nodup_append.mp h.nodup).2.2 fd hfd fd hg rfl
  · intro c hc hi
    have hne := hfree c hc hi
    refine hnodup.mem_erase_iff.mpr ⟨hne, h.claims c ((hleaves.claims c hi ?_).mp hc) hi⟩
    exact fun heq => hne (Option.some.inj heq).symm

/-- An `Item` is gone. -/
theorem Idle.closed {fd : Nat} (h : Idle u i t s) (hfd : fd ∈ t.items)
    (hleaves : Leaves u i t.cache.cacheInfoFd (some fd) s s') (answer : Bool)
    (hfree : ∀ c ∈ s'.2.pending, c.client = i → c.fd ≠ fd) :
    Idle u i { t with items := t.items.erase fd, answer := answer } s' := by
  obtain ⟨-, hnodup, hdisjoint⟩ := List.nodup_append.mp h.nodup
  have hsub : (t.putItems ++ t.items.erase fd).Sublist (t.putItems ++ t.items) :=
    List.erase_sublist.append_left t.putItems
  refine ⟨⟨hleaves.out, fun g hg => hleaves.info g hg (h.ready.info g hg), h.ready.dir⟩, h.started,
    hsub.nodup h.nodup, ?_, ?_, ?_, ?_⟩
  · exact fun g hg => h.apart g (hsub.subset hg)
  · intro g hg
    have hne : some fd ≠ some g := by
      rintro ⟨⟩
      exact hdisjoint fd hg fd hfd rfl
    obtain ⟨x, hx, hlock, hclaim⟩ := h.putItems g hg
    refine ⟨x, hleaves.own g x hne (h.apart g (List.mem_append_left _ hg)) hx, hlock, fun hacc => ?_⟩
    exact (hleaves.claims ⟨i, g, x.ino⟩ rfl hne).mpr (hclaim hacc)
  · intro g hg
    obtain ⟨hne, hmem⟩ := hnodup.mem_erase_iff.mp hg
    obtain ⟨x, hx⟩ := h.items g hmem
    refine ⟨x, hleaves.own g x ?_ (h.apart g (List.mem_append_right _ hmem)) hx⟩
    exact fun heq => hne (Option.some.inj heq).symm
  · intro c hc hi
    refine h.claims c ((hleaves.claims c hi ?_).mp hc) hi
    exact fun heq => hfree c hc hi (Option.some.inj heq).symm

/-- The holder of a `PutItem` has moved in it. -/
theorem Idle.moved {fd : Nat} {o : OpenFile} (h : Idle u i t s) (hlock : o.lock = some .exclusive)
    (hclaim : u.accounts = true → ⟨i, fd, o.ino⟩ ∈ s.2.pending)
    (hmoved : Moved u i fd o t.cache.cacheInfoFd s s') : Idle u i t s' := by
  obtain ⟨hleaves, ⟨pos, hown⟩, hclaims⟩ := hmoved
  refine ⟨⟨hleaves.out, fun g hg => hleaves.info g hg (h.ready.info g hg), h.ready.dir⟩, h.started,
    h.nodup, h.apart, ?_, ?_, fun c hc hi => h.claims c ((hclaims c hi).mp hc) hi⟩
  · intro g hg
    by_cases hgfd : g = fd
    · subst hgfd
      exact ⟨_, hown, hlock, fun hacc => (hclaims ⟨i, g, o.ino⟩ rfl).mpr (hclaim hacc)⟩
    · obtain ⟨x, hx, hxlock, hxclaim⟩ := h.putItems g hg
      refine ⟨x, hleaves.own g x ?_ (h.apart g (List.mem_append_left _ hg)) hx, hxlock, fun hacc => ?_⟩
      · exact fun heq => hgfd (Option.some.inj heq).symm
      · exact (hclaims ⟨i, g, x.ino⟩ rfl).mpr (hxclaim hacc)
  · intro g hg
    by_cases hgfd : g = fd
    · subst hgfd
      exact ⟨_, hown⟩
    · obtain ⟨x, hx⟩ := h.items g hg
      refine ⟨x, hleaves.own g x ?_ (h.apart g (List.mem_append_right _ hg)) hx⟩
      exact fun heq => hgfd (Option.some.inj heq).symm

/-- A client whose object is initialised is idle again. -/
theorem Idle.initialised {fc : FileCache} (h : Idle u i t s) (hshared : u.shared = none)
    (hprep : u.accounts = true → u.prepared = false)
    (hdone : Initialised u i t.cache s fc s') (answer : Bool) :
    Idle u i { t with cache := fc, answer := answer } s' := by
  obtain ⟨habides, hfc⟩ := hdone
  have hidle := h.leaves (habides.leaves hshared t.cache.cacheInfoFd)
  rcases hfc with rfl | ⟨-, hinfo⟩
  · exact hidle.answer answer
  · refine ⟨⟨hidle.ready.out, fun f hf => (hinfo f hf).2.1, fun f hf => (hinfo f hf).1⟩, ?_,
      hidle.nodup, ?_, hidle.putItems, hidle.items, hidle.claims⟩
    · intro hacc hne
      have hprep' := (h.started hacc hne).1
      rw [hprep hacc] at hprep'
      cases hprep'
    · intro g hg hf
      exact h.fresh (hinfo g hf).2.2 hg

/-- Every operation keeps the protocol. -/
theorem run_keeps {op : CacheOp} (hop : Allowed u op) (hinv : u.Inv s) (h : Idle u i t s) :
    Keeps u may i (op.run t) (Idle u i) s := by
  cases op with
  | initCache cacheDir size purgeSize =>
      obtain ⟨hdir, hshared, hprep⟩ := hop
      refine (initCache_keeps hinv h.ready.out hshared hdir hprep).andThen hinv ?_
      intro result s1 _ hdone
      exact keeps_pure fun s2 hrely _ => (h.initialised hshared hprep hdone result.1).rely hrely
  | put key fileName => exact h.answered hinv (put_keeps h.ready hop fileName)
  | putData key data => exact h.answered hinv (putData_keeps h.ready hop data)
  | putItem key =>
      refine (putItem_keeps h.ready hop.1 fun hacc => (hop.2 hacc).2).andThen hinv ?_
      intro result s1 _ hdone
      exact keeps_pure fun s2 hrely _ => (h.putItem (fun hacc => (hop.2 hacc).1) hdone).rely hrely
  | writePutItem fd bytes =>
      rw [CacheOp.run]
      split
      next hfd =>
        obtain ⟨o, hown, hlock, hclaim⟩ := h.putItems fd hfd
        have hne := h.apart fd (List.mem_append_left _ hfd)
        refine (writePutItem_keeps h.ready.out hown hne hlock hclaim).andThen hinv ?_
        intro written s1 _ hmoved
        exact keeps_pure fun s2 hrely _ => ((h.moved hlock hclaim hmoved).rely hrely).answer _
      · exact keeps_pure fun s1 hrely _ => (h.rely hrely).answer false
  | seekPutItem fd pos =>
      rw [CacheOp.run]
      split
      next hfd =>
        obtain ⟨o, hown, hlock, hclaim⟩ := h.putItems fd hfd
        have hne := h.apart fd (List.mem_append_left _ hfd)
        refine (seekPutItem_keeps h.ready.out hown hne).andThen hinv ?_
        intro sought s1 _ hmoved
        exact keeps_pure fun s2 hrely _ => ((h.moved hlock hclaim hmoved).rely hrely).answer sought
      · exact keeps_pure fun s1 hrely _ => (h.rely hrely).answer false
  | destroyPutItem fd =>
      rw [CacheOp.run]
      split
      next hfd =>
        obtain ⟨o, hown, -, hclaim⟩ := h.putItems fd hfd
        have hne := h.apart fd (List.mem_append_left _ hfd)
        have hready : u.accounts = true → t.cache.cacheInfoFd ≠ none :=
          fun hacc => (h.started hacc (List.ne_nil_of_mem hfd)).2
        refine (destroyPutItem_keeps h.ready hready hown hne hclaim hinv).andThen hinv ?_
        rintro _ s1 - ⟨hleaves, hfree⟩
        exact keeps_pure fun s2 hrely _ => (h.destroyed hfd hleaves hfree true).rely hrely
      · exact keeps_pure fun s1 hrely _ => (h.rely hrely).answer false
  | destroyEmptyPutItem =>
      refine (destroyEmptyPutItem_keeps h.ready hinv).andThen hinv ?_
      intro _ s1 _ hleaves
      exact keeps_pure fun s2 hrely _ => ((h.leaves hleaves).rely hrely).answer true
  | get key =>
      refine (get_keeps h.ready).andThen hinv ?_
      intro result s1 _ hdone
      exact keeps_pure fun s2 hrely _ => (h.get hdone).rely hrely
  | closeItem fd =>
      rw [CacheOp.run]
      split
      next hfd =>
        obtain ⟨o, hown⟩ := h.items fd hfd
        have hne := h.apart fd (List.mem_append_right _ hfd)
        have hfree : ∀ c ∈ s.2.pending, c.client = i → c.fd ≠ fd := by
          rintro c hc hi rfl
          -- a pending file has the descriptor of an item that is being put, and `fd` is of one that is read
          exact (List.nodup_append.mp h.nodup).2.2 c.fd (h.claims c hc hi) c.fd hfd rfl
        refine closeOwn_keeps h.ready.out hown hne hfree ?_
        intro closed s1 _ hleaves hfree1
        exact keeps_pure fun s2 hrely _ => (h.closed hfd hleaves closed hfree1).rely hrely
      · exact keeps_pure fun s1 hrely _ => (h.rely hrely).answer false
  | del key => exact h.answered hinv (del_keeps h.ready hop)
  | clear => exact h.answered hinv (clear_keeps h.ready hop)
  | purge => exact h.answered hinv (purge_keeps h.ready hop)

/-- The clients of a cache keep its protocol. -/
theorem obligations (hmay : ∀ op, may op → Allowed u op) :
    Obligations (u.system may) u.protocol (Idle u) where
  stable := fun h hrely _ => h.rely hrely
  start := fun hop hinv h => run_keeps (hmay _ hop) hinv h
  drift := by
    intro w w' g hdrift hinv
    have hq := quiet_of_drift hinv hdrift
    exact ⟨hq.inv hinv, fun i => hq.rely hinv i⟩

/-! ## Where runs begin -/

/-- Nobody is busy or has items, `cache_info` is not locked, and each object that has been initialised has
a descriptor for it. Where the sizes are accounted for, the recorded one is right. -/
structure Starts (u : Usage) (a : Config sysCalls Kernel Session) : Prop where
  wf : a.world.Wf
  unlocked : ∀ fd o, a.world.opened fd = some o → u.IsInfo a.world o.ino → o.lock = none
  idle : ∀ i, ∃ t, a.tasks i = .idle t ∧ t.putItems = [] ∧ t.items = [] ∧
    ∀ f, t.cache.cacheInfoFd = some f →
      t.cache.cacheDir = u.dir ∧ u.InfoFd i f (a.world, ⟨none, []⟩)
  noFolder : u.accounts = true → u.prepared = true → ∀ n ino, (u.home ++ [n], ino) ∉ a.world.folders
  balanced : u.accounts = true → recordedSize u.home a.world = itemBytes u.home a.world

variable {a b : Config sysCalls Kernel Session}

/-- New objects, and nothing open. -/
theorem starts_of_closed (hwf : a.world.Wf) (hclosed : ∀ fd, a.world.opened fd = none)
    (hnew : ∀ i, a.tasks i = .idle .new) (hfolder : u.accounts = true → u.prepared = false)
    (hbalanced : u.accounts = true → recordedSize u.home a.world = itemBytes u.home a.world) :
    Starts u a := by
  refine ⟨hwf, ?_, fun i => ⟨.new, hnew i, rfl, rfl, nofun⟩, ?_, hbalanced⟩
  · intro fd o ho
    rw [hclosed fd] at ho
    cases ho
  · intro haccounts hprepared
    rw [hfolder haccounts] at hprepared
    cases hprepared

/-- Without pending files, all items count. -/
theorem counted_nil (K : Kernel) (holder : Option (Nat × Nat)) :
    u.counted (K, ⟨holder, []⟩) = itemBytes u.home K := by
  rw [counted, itemBytes]
  congr 1
  apply List.map_congr_left
  intro e _
  simp [weight]

theorem Starts.coupled (h : Starts u a) : Coupled (u.system may) u.protocol (Idle u) a ⟨none, []⟩ where
  inv := by
    refine ⟨h.wf, fun fd o ho hinfo hlock => absurd (h.unlocked fd o ho hinfo) hlock, nofun, ?_,
      fun _ => rfl⟩
    intro hacc
    refine ⟨h.noFolder hacc, nofun, List.nodup_nil, ?_, fun _ => ?_⟩
    · rw [← h.balanced hacc]
      exact recordedSize_lt u.home a.world
    · rw [counted_nil]
      exact h.balanced hacc
  fits := by
    intro i
    obtain ⟨t, htask, hput, hitems, hinfo⟩ := h.idle i
    rw [htask]
    refine ⟨⟨fun _ => nofun, fun f hf => (hinfo f hf).2, fun f hf => (hinfo f hf).1⟩, ?_, ?_, ?_, ?_, ?_,
      nofun⟩
    · exact fun _ hne => absurd hput hne
    · rw [hput, hitems]
      exact List.nodup_nil
    · rw [hput, hitems]
      exact nofun
    · rw [hput]
      exact nofun
    · rw [hitems]
      exact nofun

/-! ## No deadlock -/

/-- While all clients that are busy wait, somebody is in the section, and who is in the section does not
wait. -/
theorem not_deadlocked_of_coupled {g : Ghost}
    (h : Coupled (u.system may) u.protocol (Idle u) a g) : ¬ (clients may).Deadlocked a := by
  rintro ⟨⟨i, hbusy⟩, hall⟩
  -- whoever waits, waits for the lock of the cache, from outside
  have hwaits : ∀ j, System.Busy a j → (∀ f, g.holder ≠ some (j, f)) ∧ ∃ j' f, g.holder = some (j', f) := by
    intro j hj
    obtain ⟨c, k, htask, hexec⟩ := hall j hj
    obtain ⟨fd, mode, x, rfl, hx, hgrants⟩ := Kernel.exec_eq_none hexec
    obtain ⟨hinside, hitem⟩ := h.safe htask
    have hinfo : u.OnInfo a.world fd := by
      by_contra hnot
      exact hitem hnot hexec
    refine ⟨(hinside hinfo).1, ?_⟩
    by_contra hnobody
    have hgranted : a.world.grants fd x.ino mode = true := by
      rw [Kernel.grants_iff h.inv.wf]
      intro fd' y hy _ hino
      left
      by_contra hlock
      obtain ⟨y', hy', hinfo'⟩ := hinfo
      rw [hx] at hy'
      obtain rfl := Option.some.inj hy'
      obtain ⟨j', hj'⟩ := h.inv.locked fd' y hy (by rw [hino]; exact hinfo') hlock
      exact hnobody ⟨j', fd', hj'⟩
    rw [hgranted] at hgrants
    cases hgrants
  obtain ⟨-, j, f, hholder⟩ := hwaits i hbusy
  cases htask : a.tasks j with
  | idle t => exact (h.idle_of htask).ready.out f hholder
  | busy c k => exact (hwaits j ⟨c, k, htask⟩).1 f hholder

/-- Processes that use a cache in one directory, with any keys. -/
def inDir (dir : Text) : CacheOp → Prop
  | .initCache cacheDir _ _ => cacheDir = dir
  | _ => True

instance (dir : Text) : DecidablePred (inDir dir)
  | .initCache cacheDir _ _ => inferInstanceAs (Decidable (cacheDir = dir))
  | .put _ _ | .putData _ _ | .putItem _ | .writePutItem _ _ | .seekPutItem _ _ | .destroyPutItem _
  | .destroyEmptyPutItem | .get _ | .closeItem _ | .del _ | .clear | .purge => isTrue trivial

/-- Processes that share a cache do not wait for each other for ever: not all that are in the middle of an
operation wait for a lock. -/
theorem never_deadlocked {dir : Text} (hdir : '\x00' ∉ dir) (hwf : a.world.Wf)
    (hclosed : ∀ fd, a.world.opened fd = none) (hnew : ∀ i, a.tasks i = .idle .new)
    (hreach : (clients (inDir dir)).Reaches a b) : ¬ (clients (inDir dir)).Deadlocked b := by
  let u : Usage := ⟨dir, none, false, false, false, hdir⟩
  have hstarts : Starts u a := starts_of_closed hwf hclosed hnew nofun nofun
  have hallowed : ∀ op, inDir dir op → Allowed u op := by
    intro op hop
    cases op with
    | initCache cacheDir _ _ => exact ⟨hop, rfl, nofun⟩
    | putItem key => exact ⟨nofun, nofun⟩
    | clear => rfl
    | put | putData | del | purge => exact nofun
    | writePutItem | seekPutItem | destroyPutItem | destroyEmptyPutItem | get | closeItem => trivial
  have hcoupled : ∃ g, Coupled (u.system (inDir dir)) u.protocol (Idle u) b g := by
    refine hreach.preserves (P := fun c => ∃ g, Coupled (u.system (inDir dir)) u.protocol (Idle u) c g)
      ?_ ⟨_, hstarts.coupled⟩
    rintro c e d ⟨g, hc⟩ hstep
    have htidy : ∀ i c K r, u.Tidy i c K r := by
      intro i c K r
      cases c with
      | write | flock => exact nofun
      | _ => trivial
    have hstep' : (u.system (inDir dir)).Step c e d := by
      cases hstep with
      | begun htask hmay => exact .begun htask hmay
      | @called i call k r w htask hexec _ => exact .called htask hexec (htidy i call c.world r)
      | drifted hdrift => exact .drifted hdrift
    obtain ⟨g', hd, -⟩ := (obligations hallowed).step hc hstep'
    exact ⟨g', hd⟩
  obtain ⟨g, hg⟩ := hcoupled
  exact not_deadlocked_of_coupled hg

/-- A kernel with nothing but one empty folder. -/
def oneFolder : Kernel where
  files := []
  folders := [([], 0), ([['c']], 1)]
  data := fun _ => []
  atime := fun _ => 0
  opened := fun _ => none
  nextIno := 2
  nextFd := 0
  now := 0
  sources := fun _ => none

theorem wf_oneFolder : oneFolder.Wf :=
  Kernel.wf_of_closed (fun _ => rfl) (by decide) (by decide) (by decide) (by decide)

/-- One process waits for the lock that the other one has. -/
theorem never_deadlocked_two : ∃ b, (clients (inDir ['/', 'c'])).Blocked b 1 ∧
    ¬ (clients (inDir ['/', 'c'])).Deadlocked b := by
  obtain ⟨steps, hrun, hwaits, -⟩ := System.exists_run (clients (inDir ['/', 'c']))
    ⟨oneFolder, fun _ => .idle .new⟩
    ((0, some (.initCache ['/', 'c'] 0 0)) :: List.replicate 3 (0, none) ++
      (1, some (.initCache ['/', 'c'] 0 0)) :: List.replicate 3 (1, none) ++
      (0, some (.putData ['a'] [1, 2])) :: List.replicate 2 (0, none) ++ [(1, some (.putData ['b'] []))])
    (p := fun steps => (clients (inDir ['/', 'c'])).isBlocked
      (System.last ⟨oneFolder, fun _ => .idle .new⟩ steps) 1) (by decide)
  refine ⟨_, System.blocked_of_isBlocked hwaits, ?_⟩
  exact never_deadlocked (by decide) wf_oneFolder (fun _ => rfl) (fun _ => rfl) ⟨steps, hrun, rfl⟩

end Usage

end Skunk.BesUtils
