import Skunk.BesUtils.CachePurge
import Skunk.BesUtils.DraftRules

/-!
# A process between its operations

The operations that open what is there, and what a process has in hand between two operations
(`AtRest`): its `PutItem`s are files that it has created and locked, its `Item`s are files that `get` has
opened for it, and if `put` or `put_data` has just answered that all went well, there is a file that holds
what was to be put. Every operation keeps that (`run_goes`).
-/

namespace Skunk.BesUtils

open Effect Posix

variable {dir : Text} {h : Hand} {f fd : Nat} {α : Type} {Q : α → Hand → Prop} {fc : FileCache}
  {key : Text}

/-! ## Files that are there -/

/-- `lock_the_item` on a file that was there. -/
theorem lockOld_goes {x : Reading} (hin : h.Inside f) (hx : x ∈ h.readings) (mode : FlockMode) :
    Goes dir (fun _ h' => h' = h) (lockTheItem x.fd mode true) h := by
  have hinfo : x.fd ∉ h.infos := by
    intro hmem
    have hnodup := hin.nodup
    rw [Hand.fds, List.append_assoc] at hnodup
    exact (List.nodup_append.mp hnodup).2.2 x.fd hmem x.fd
      (List.mem_append_right _ (List.mem_map_of_mem hx)) rfl
  refine goes_look (.inr (.inr ⟨hin.busy, ⟨x, hx, rfl⟩, rfl⟩)) ?_ fun locked _ => ?_
  · intro K r _
    cases r with
    | false => rfl
    | true => exact (if_neg hinfo).trans (Hand.edit_eq_self (Hand.ne_of_reading hin.nodup hx))
  · split
    · exact goes_look trivial (fun _ _ _ => rfl) fun _ _ => rfl
    · exact rfl

/-- A file that was there is closed again. -/
theorem withOld_goes {x : Reading} {body : Sys α} (hx : x.fd ∉ h.fds)
    (hbody : Goes dir (fun _ h' => h' = h.reading x) body (h.reading x)) :
    Goes dir (fun _ h' => h' = h) (withItem x.fd body) (h.reading x) := by
  refine hbody.bind ?_
  intro a h' hsame
  rw [hsame]
  refine goes_call.mpr ⟨.inl ⟨x, List.mem_cons_self, rfl⟩, fun K c _ => ?_⟩
  have hedit : (h.reading x).edit x.fd (fun p => { p with stage := .closed }) = h.reading x :=
    Hand.edit_eq_self (h := h.reading x) (Hand.ne_of_new (h := h) hx)
  have hreadings : ((h.reading x).readings.filter fun r => r.fd ≠ x.fd) = h.readings := by
    have hothers : (h.readings.filter fun r => r.fd ≠ x.fd) = h.readings := by
      rw [List.filter_eq_self]
      intro r hr
      rw [decide_eq_true_eq]
      intro heq
      apply hx
      simp only [Hand.mem_fds]
      exact .inr (.inr ⟨r, hr, heq⟩)
    simpa [Hand.reading] using hothers
  show ({ (h.reading x).edit x.fd fun p => { p with stage := .closed } with
    readings := (h.reading x).readings.filter fun r => r.fd ≠ x.fd } : Hand) = h
  rw [hedit, hreadings]
  rfl

/-- Opening an item to remove it. -/
theorem openItem_goes {path : Text} {k : Option Nat → Sys α} (hin : h.Inside f)
    (hpath : IsKeyPath dir path) (hnone : Goes dir Q (k none) h)
    (hsome : ∀ x : Reading, x.fd ∉ h.fds → Goes dir Q (k (some x.fd)) (h.reading x)) :
    Goes dir Q (call (.openWrite path) >>= k) h := by
  refine goes_call.mpr ⟨.inr ⟨hin.busy, hpath⟩, fun K r hr => ?_⟩
  cases r with
  | none => exact hnone
  | some fd =>
      have hnext : h.next dir K (.openWrite path) (some fd) = h.reading ⟨fd, path, h.op⟩ := by
        refine if_neg ?_
        obtain ⟨key, hkey, rfl⟩ := hpath
        exact isKey_ne hkey
      rw [hnext]
      exact hsome ⟨fd, path, h.op⟩ hr

/-- `get` opens the file of its key for reading, or leaves everything as it was. -/
theorem get_goes (hout : h.Outside)
    (hinfo : ∀ f, fc.cacheInfoFd = some f → f ∈ h.infos ∧ fc.cacheDir = dir) (hkey : IsKey key)
    (hop : h.op = some (.get key)) :
    Goes dir (fun r h' => r.2 = none ∧ h' = h ∨ ∃ x : Reading, h' = h.reading x ∧ x.fd ∉ h.fds ∧
      r.2 = some x.fd ∧ x.path = pathConcat dir key ∧ x.op = some (.get key)) (fc.get key) h := by
  have hsame : ({ h with inside := none } : Hand) = h := by
    have hinside := hout.inside
    cases h
    dsimp only at hinside
    rw [hinside]
  refine withCacheLock_goes hout (fun f hf => (hinfo f hf).1) (.inl ⟨rfl, rfl⟩) fun f hf hin => ?_
  have hpath : fc.keyFileName key = pathConcat dir key := by rw [FileCache.keyFileName, (hinfo f hf).2]
  refine goes_call.mpr ⟨⟨hin.busy, key, hkey, hpath, hop⟩, fun K r hr => ?_⟩
  cases r with
  | none => exact ⟨hin, .inl ⟨rfl, hsame⟩⟩
  | some fd =>
      have hin' : (({ h with inside := some f } : Hand).reading ⟨fd, fc.keyFileName key, h.op⟩).Inside f :=
        hin.reading hr
      refine (lockOld_goes (x := ⟨fd, fc.keyFileName key, h.op⟩) hin' List.mem_cons_self .shared).bind ?_
      rintro locked _ rfl
      refine ⟨hin', .inr ⟨⟨fd, fc.keyFileName key, h.op⟩, ?_, hr, rfl, hpath, hop⟩⟩
      show ({ h with inside := none } : Hand).reading ⟨fd, fc.keyFileName key, h.op⟩ = _
      rw [hsame]

theorem del_goes (hout : h.Outside)
    (hinfo : ∀ f, fc.cacheInfoFd = some f → f ∈ h.infos ∧ fc.cacheDir = dir) (hkey : IsKey key) :
    Goes dir (fun _ h' => h' = h) (fc.del key) h := by
  unfold FileCache.del
  refine locked_goes hout (fun f hf => (hinfo f hf).1) fun f h' hf hin => ?_
  have hpath : IsKeyPath dir (fc.keyFileName key) := by
    refine ⟨key, hkey, ?_⟩
    rw [FileCache.keyFileName, (hinfo f hf).2]
  refine openItem_goes hin hpath rfl fun x hx => ?_
  have hin' := hin.reading hx
  refine withOld_goes hx ?_
  refine (lockOld_goes hin' List.mem_cons_self .exclusive).bind ?_
  rintro locked _ rfl
  split
  · refine (getFileSize_goes x.fd).bind ?_
    rintro size _ rfl
    refine goes_look ⟨hin'.busy, hpath⟩ (fun _ _ _ => rfl) fun removed _ => ?_
    split
    · refine (getCacheInfoSize_goes hin'.nodup hin'.info).bind ?_
      rintro recorded _ rfl
      refine goes_look trivial (fun _ _ _ => rfl) fun left _ => ?_
      exact updateCacheInfoSize_goes hin'.nodup hin'.info _
    · exact rfl
  · exact rfl

/-! ## All files -/

theorem filesInCache_goes (hdir : fc.cacheDir = dir) :
    Goes dir (fun r h' => h' = h ∧ ∀ files, r = some files → ∀ file ∈ files, IsKeyPath dir file)
      fc.filesInCache h := by
  refine goes_look trivial (fun _ _ _ => rfl) fun names hnames => ⟨rfl, ?_⟩
  intro files hfiles file hfile
  cases names with
  | none => cases hfiles
  | some names =>
      obtain rfl := Option.some.inj hfiles
      obtain ⟨n, hn, rfl⟩ := List.mem_map.mp hfile
      obtain ⟨hmem, hn⟩ := List.mem_filter.mp hn
      simp only [decide_eq_true_eq] at hn
      rcases hnames n hmem with hdot | hdots | hname
      · exact absurd hdot hn.1
      · exact absurd hdots hn.2.1
      · exact ⟨n, ⟨hname, hn.2.2⟩, by rw [FileCache.keyFileName, hdir]⟩

theorem removeFiles_goes (hin : h.Inside f) {files : List Text} (hfiles : ∀ file ∈ files, IsKeyPath dir file) :
    Goes dir (fun _ h' => h' = h) (FileCache.removeFiles files) h := by
  induction files with
  | nil => exact rfl
  | cons file rest ih =>
      refine goes_look ⟨hin.busy, hfiles file List.mem_cons_self⟩ (fun _ _ _ => rfl) fun removed _ => ?_
      split
      · exact ih fun file hfile => hfiles file (List.mem_cons_of_mem _ hfile)
      · exact rfl

theorem clear_goes (hout : h.Outside)
    (hinfo : ∀ f, fc.cacheInfoFd = some f → f ∈ h.infos ∧ fc.cacheDir = dir) :
    Goes dir (fun _ h' => h' = h) fc.clear h := by
  unfold FileCache.clear
  refine locked_goes hout (fun f hf => (hinfo f hf).1) fun f h' hf hin => ?_
  refine (filesInCache_goes (hinfo f hf).2).bind ?_
  rintro files _ ⟨rfl, hfiles⟩
  cases files with
  | none => exact rfl
  | some files => exact removeFiles_goes hin (hfiles files rfl)

/-- Looking at the files changes nothing, and all that is found are items. -/
theorem statFiles_goes {files : List Text} {items : List FileCache.ItemInfo}
    (hfiles : ∀ file ∈ files, IsKeyPath dir file) (hitems : ∀ x ∈ items, IsKeyPath dir x.name) :
    Goes dir (fun r h' => h' = h ∧ ∀ items, r = some items → ∀ x ∈ items, IsKeyPath dir x.name)
      (FileCache.statFiles files items) h := by
  induction files generalizing items with
  | nil =>
      refine ⟨rfl, ?_⟩
      rintro _ ⟨⟩
      exact hitems
  | cons file rest ih =>
      refine goes_look trivial (fun _ _ _ => rfl) fun sb _ => ?_
      cases sb with
      | none => exact ⟨rfl, nofun⟩
      | some sb =>
          refine ih (fun file hfile => hfiles file (List.mem_cons_of_mem _ hfile)) ?_
          intro x hx
          rcases List.mem_cons.mp ((Usage.insertItem_perm _ items).mem_iff.mp hx) with rfl | hx
          · exact hfiles file List.mem_cons_self
          · exact hitems x hx

theorem removeItems_goes (hin : h.Inside f) {items : List FileCache.ItemInfo}
    (hitems : ∀ x ∈ items, IsKeyPath dir x.name) (purgeSize removed : Nat) :
    Goes dir (fun _ h' => h' = h) (FileCache.removeItems purgeSize items removed) h := by
  induction items generalizing removed with
  | nil => exact rfl
  | cons item rest ih =>
      rw [FileCache.removeItems]
      split
      · exact rfl
      · have hpath := hitems item List.mem_cons_self
        refine openItem_goes hin hpath rfl fun x hx => ?_
        have hin' := hin.reading hx
        refine (withOld_goes hx ?_).bind ?_
        · refine (lockOld_goes hin' List.mem_cons_self .exclusive).bind ?_
          rintro locked _ rfl
          split
          · exact goes_look ⟨hin'.busy, hpath⟩ (fun _ _ _ => rfl) fun _ _ => rfl
          · exact rfl
        · intro left h' hsame
          rw [hsame]
          exact ih (fun x hx => hitems x (List.mem_cons_of_mem _ hx)) left

theorem purge_goes (hout : h.Outside)
    (hinfo : ∀ f, fc.cacheInfoFd = some f → f ∈ h.infos ∧ fc.cacheDir = dir) :
    Goes dir (fun _ h' => h' = h) fc.purge h := by
  unfold FileCache.purge
  refine locked_goes hout (fun f hf => (hinfo f hf).1) fun f h' hf hin => ?_
  refine (getCacheInfoSize_goes hin.nodup hin.info).bind ?_
  rintro recorded _ rfl
  split
  · exact rfl
  · refine (filesInCache_goes (hinfo f hf).2).bind ?_
    rintro files _ ⟨rfl, hfiles⟩
    cases files with
    | none => exact rfl
    | some files =>
        refine (statFiles_goes (hfiles files rfl) (by simp)).bind ?_
        rintro items _ ⟨rfl, hitems⟩
        cases items with
        | none => exact rfl
        | some items =>
            refine (removeItems_goes hin (hitems items rfl) fc.purgeSize 0).bind ?_
            rintro removed _ rfl
            cases removed with
            | none => exact rfl
            | some removed =>
                refine goes_look trivial (fun _ _ _ => rfl) fun left _ => ?_
                exact updateCacheInfoSize_goes hin.nodup hin.info left

/-! ## Initialising -/

/-- What `initialize` leaves: more descriptors for `cache_info`, and one of them in the object. -/
structure Opened (dir : Text) (h : Hand) (fc : FileCache) (h' : Hand) : Prop where
  outside : h'.Outside
  grown : ∃ fds, h' = { h with infos := fds ++ h.infos }
  info : ∀ f, fc.cacheInfoFd = some f → f ∈ h'.infos ∧ fc.cacheDir = dir

theorem Hand.Outside.opened (hout : h.Outside) (hfd : fd ∉ h.fds) :
    ({ h with infos := fd :: h.infos } : Hand).Outside :=
  ⟨hout.inside, hout.settled, List.nodup_cons.mpr ⟨hfd, hout.nodup⟩⟩

theorem openCacheInfo_goes (hout : h.Outside) (hdir : fc.cacheDir = dir)
    (hinfo : ∀ f, fc.cacheInfoFd = some f → f ∈ h.infos) :
    Goes dir (fun r h' => Opened dir h r.2 h') fc.openCacheInfo h := by
  have hpath : fc.keyFileName cacheInfoName = infoPath dir := by
    rw [FileCache.keyFileName, hdir, infoPath]
  unfold FileCache.openCacheInfo
  split
  · exact ⟨hout, ⟨[], rfl⟩, fun f hf => ⟨hinfo f hf, hdir⟩⟩
  · refine goes_call.mpr ⟨.inl hpath, fun K created hcreated => ?_⟩
    cases created with
    | some fd =>
        have hnext : h.next dir K (.create (fc.keyFileName cacheInfoName)) (some fd) =
            { h with infos := fd :: h.infos } := if_pos hpath
        rw [hnext]
        have hout' := hout.opened hcreated
        refine goes_look (.inl List.mem_cons_self) ?_ fun written _ => ?_
        · exact fun K r _ => Hand.next_write_info hout'.nodup List.mem_cons_self K _ r
        · refine ⟨hout', ⟨[fd], rfl⟩, ?_⟩
          rintro _ ⟨⟩
          exact ⟨List.mem_cons_self, hdir⟩
    | none =>
        refine (goes_call (h := h)).mpr ⟨.inl hpath, fun K opened hopened => ?_⟩
        cases opened with
        | none => exact ⟨hout, ⟨[], rfl⟩, by simp⟩
        | some fd =>
            have hnext : h.next dir K (.openWrite (fc.keyFileName cacheInfoName)) (some fd) =
                { h with infos := fd :: h.infos } := if_pos hpath
            rw [hnext]
            refine ⟨hout.opened hopened, ⟨[fd], rfl⟩, ?_⟩
            rintro _ ⟨⟩
            exact ⟨List.mem_cons_self, hdir⟩

theorem initCache_goes (hout : h.Outside) (size purgeSize : Int)
    (hinfo : ∀ f, fc.cacheInfoFd = some f → f ∈ h.infos ∧ fc.cacheDir = dir) :
    Goes dir (fun r h' => Opened dir h r.2 h') (fc.initCache dir size purgeSize) h := by
  have hnothing : Opened dir h fc h := ⟨hout, ⟨[], rfl⟩, hinfo⟩
  have hopen : Goes dir (fun r h' => Opened dir h r.2 h') (do
      let opened ← FileCache.openCacheInfo { fc with cacheDir := dir }
      if opened.1 then
        pure (true, { opened.2 with
          maxCacheSizeInBytes := size.toNat
          purgeSize := purgeSize.toNat })
      else pure (false, opened.2)) h := by
    let fc' : FileCache := { fc with cacheDir := dir }
    have hopens : Goes dir (fun r h' => Opened dir h r.2 h') fc'.openCacheInfo h :=
      openCacheInfo_goes hout rfl fun f hf => (hinfo f hf).1
    refine hopens.bind ?_
    intro opened h' hopened
    split
    · exact ⟨hopened.outside, hopened.grown, hopened.info⟩
    · exact hopened
  unfold FileCache.initCache
  split
  · exact hnothing
  · refine goes_look trivial (fun _ _ _ => rfl) fun found _ => ?_
    split
    · exact hopen
    · refine goes_look trivial (fun _ _ _ => rfl) fun _ _ => ?_
      refine goes_look trivial (fun _ _ _ => rfl) fun found _ => ?_
      show Goes dir _ (if found.isSome = true then _ else _) h
      split
      · exact hopen
      · exact hnothing

/-! ## Between two operations -/

/-- What was to be put is in a file that has been closed. -/
def Hand.Answered (dir : Text) (h : Hand) : Prop :=
  match h.op with
  | some (.put key _) | some (.putData key _) =>
    ∃ p ∈ h.drafts, p.op = h.op ∧ p.turn = h.turn ∧ p.path = pathConcat dir key ∧ p.stage = .closed ∧
      p.Exact h.sources
  | _ => True

/-- The descriptors of a process that is not busy. -/
structure Rests (dir : Text) (t : Session) (h : Hand) : Prop extends h.Outside where
  cache : ∀ f, t.cache.cacheInfoFd = some f → f ∈ h.infos ∧ t.cache.cacheDir = dir
  putItems : ∀ fd ∈ t.putItems, ∃ p ∈ h.drafts, p.fd = fd ∧ p.stage = .locked ∧
    ∃ key, p.op = some (.putItem key)
  items : ∀ fd ∈ t.items, ∃ x ∈ h.readings, x.fd = fd ∧
    ∃ key, IsKey key ∧ x.op = some (.get key) ∧ x.path = pathConcat dir key
  putItems_nodup : t.putItems.Nodup
  items_nodup : t.items.Nodup

structure AtRest (dir : Text) (t : Session) (h : Hand) : Prop extends Rests dir t h where
  answered : t.answer = true → h.Answered dir

section Rests

variable {t : Session} {op : CacheOp}

theorem Rests.started (hrest : Rests dir t h) (op : CacheOp) : 
    Rests dir t { h with op := some op, turn := h.turn + 1 } :=
  ⟨⟨hrest.inside, hrest.settled, hrest.nodup⟩, hrest.cache, hrest.putItems, hrest.items,
    hrest.putItems_nodup, hrest.items_nodup⟩

theorem Rests.answer (hrest : Rests dir t h) (answer : Bool) : Rests dir { t with answer := answer } h :=
  ⟨hrest.toOutside, hrest.cache, hrest.putItems, hrest.items, hrest.putItems_nodup, hrest.items_nodup⟩

/-- After an operation that puts no file there is nothing more to say. -/
theorem Rests.done (hrest : Rests dir t h) (hop : h.op = some op)
    (hputs : ∀ key fileName, op ≠ .put key fileName) (hputData : ∀ key data, op ≠ .putData key data) :
    AtRest dir t h where
  toRests := hrest
  answered := by
    intro _
    rw [Hand.Answered, hop]
    cases op with
    | put key fileName => exact absurd rfl (hputs key fileName)
    | putData key data => exact absurd rfl (hputData key data)
    | _ => trivial

/-- What was to be put is there, or it was not put. -/
theorem Rests.put {r : Bool} {h' : Hand} (hrest : Rests dir t h)
    (hop : (∃ fileName, h.op = some (.put key fileName)) ∨ ∃ data, h.op = some (.putData key data))
    (hput : PutLeaves dir h key r h') : AtRest dir { t with answer := r } h' := by
  cases hput with
  | nothing => exact ⟨hrest.answer false, by simp⟩
  | @file r p sources hp hstage hexact hsub =>
      have hnodup : (p.fd :: h.fds).Nodup := List.nodup_cons.mpr ⟨hp.new, hrest.nodup⟩
      have hperm : (({ h with sources := sources } : Hand).drafting p).fds.Perm (p.fd :: h.fds) := by
        simp only [Hand.fds, Hand.drafting, List.map_cons, List.append_assoc]
        exact List.perm_middle
      refine ⟨⟨⟨hrest.inside, ?_, hperm.nodup_iff.mpr hnodup⟩, hrest.cache, ?_, hrest.items,
        hrest.putItems_nodup, hrest.items_nodup⟩, ?_⟩
      · intro q hq
        rcases List.mem_cons.mp hq with rfl | hq
        · simp [hstage]
        · exact hrest.settled q hq
      · intro fd hfd
        obtain ⟨q, hq, hrest'⟩ := hrest.putItems fd hfd
        exact ⟨q, List.mem_cons_of_mem _ hq, hrest'⟩
      · intro hr
        have hfile : ∃ q ∈ p :: h.drafts, q.op = h.op ∧ q.turn = h.turn ∧ q.path = pathConcat dir key ∧
            q.stage = .closed ∧ q.Exact sources :=
          ⟨p, List.mem_cons_self, hp.op, hp.turn, hp.path, hstage, hexact hr⟩
        rcases hop with ⟨fileName, hop⟩ | ⟨data, hop⟩
        · simpa only [Hand.Answered, Hand.drafting, hop] using hfile
        · simpa only [Hand.Answered, Hand.drafting, hop] using hfile

theorem Rests.putItem {p : Draft} (hrest : Rests dir t h) (hp : p.For dir h key)
    (hop : h.op = some (.putItem key)) (hstage : p.stage = .locked) :
    Rests dir { t with putItems := p.fd :: t.putItems } (h.drafting p) where
  inside := hrest.inside
  settled := by
    intro q hq
    rcases List.mem_cons.mp hq with rfl | hq
    · rw [hstage]
      exact nofun
    · exact hrest.settled q hq
  nodup := by
    have hperm : (h.drafting p).fds.Perm (p.fd :: h.fds) := by
      simp only [Hand.fds, Hand.drafting, List.map_cons, List.append_assoc]
      exact List.perm_middle
    exact hperm.nodup_iff.mpr (List.nodup_cons.mpr ⟨hp.new, hrest.nodup⟩)
  cache := hrest.cache
  putItems := by
    intro fd hfd
    rcases List.mem_cons.mp hfd with rfl | hfd
    · exact ⟨p, List.mem_cons_self, rfl, hstage, key, hp.op.trans hop⟩
    · obtain ⟨q, hq, hrest'⟩ := hrest.putItems fd hfd
      exact ⟨q, List.mem_cons_of_mem _ hq, hrest'⟩
  items := hrest.items
  putItems_nodup := by
    refine List.nodup_cons.mpr ⟨?_, hrest.putItems_nodup⟩
    intro hmem
    obtain ⟨q, hq, hfd, -⟩ := hrest.putItems p.fd hmem
    exact Hand.ne_of_new hp.new q hq hfd
  items_nodup := hrest.items_nodup

theorem Rests.get {x : Reading} (hrest : Rests dir t h) (hnew : x.fd ∉ h.fds) (hkey : IsKey key)
    (hop : x.op = some (.get key)) (hpath : x.path = pathConcat dir key) :
    Rests dir { t with items := x.fd :: t.items } (h.reading x) where
  inside := hrest.inside
  settled := hrest.settled
  nodup := by
    have hperm : (h.reading x).fds.Perm (x.fd :: h.fds) := by
      simp only [Hand.fds, Hand.reading, List.map_cons]
      exact List.perm_middle
    exact hperm.nodup_iff.mpr (List.nodup_cons.mpr ⟨hnew, hrest.nodup⟩)
  cache := hrest.cache
  putItems := hrest.putItems
  items := by
    intro fd hfd
    rcases List.mem_cons.mp hfd with rfl | hfd
    · exact ⟨x, List.mem_cons_self, rfl, key, hkey, hop, hpath⟩
    · obtain ⟨y, hy, hrest'⟩ := hrest.items fd hfd
      exact ⟨y, List.mem_cons_of_mem _ hy, hrest'⟩
  putItems_nodup := hrest.putItems_nodup
  items_nodup := by
    refine List.nodup_cons.mpr ⟨?_, hrest.items_nodup⟩
    intro hmem
    obtain ⟨y, hy, hfd, -⟩ := hrest.items x.fd hmem
    apply hnew
    simp only [Hand.mem_fds]
    exact .inr (.inr ⟨y, hy, hfd⟩)

/-- The owner of a `PutItem` writes to it or moves in it. -/
theorem Rests.edit (hrest : Rests dir t h) (fd : Nat) {g : Draft → Draft}
    (hg : ∀ p, (g p).fd = p.fd ∧ (g p).op = p.op ∧ (g p).stage = p.stage) : Rests dir t (h.edit fd g) := by
  have hsame : ∀ p : Draft, (if p.fd = fd then g p else p).fd = p.fd ∧
      (if p.fd = fd then g p else p).op = p.op ∧ (if p.fd = fd then g p else p).stage = p.stage := by
    intro p
    split
    · exact hg p
    · exact ⟨rfl, rfl, rfl⟩
  refine ⟨⟨hrest.inside, ?_, ?_⟩, hrest.cache, ?_, hrest.items, hrest.putItems_nodup, hrest.items_nodup⟩
  · intro q hq
    obtain ⟨p, hp, rfl⟩ := List.mem_map.mp hq
    rw [(hsame p).2.2]
    exact hrest.settled p hp
  · rw [Hand.fds_edit fun p _ _ => (hg p).1]
    exact hrest.nodup
  · intro g' hg'
    obtain ⟨p, hp, hfd, hstage, key, hop⟩ := hrest.putItems g' hg'
    obtain ⟨hfd', hop', hstage'⟩ := hsame p
    exact ⟨_, List.mem_map_of_mem hp, hfd'.trans hfd, hstage'.trans hstage, key, hop'.trans hop⟩

/-- A `PutItem` or an `Item` is closed. -/
theorem Rests.close (hrest : Rests dir t h) (fd : Nat) (K : Kernel) (r : Bool) :
    Rests dir { t with putItems := t.putItems.erase fd, items := t.items.erase fd }
      (h.next dir K (.close fd) r) where
  inside := hrest.inside
  settled := by
    intro q hq
    obtain ⟨p, hp, rfl⟩ := List.mem_map.mp hq
    split
    · exact nofun
    · exact hrest.settled p hp
  nodup := by
    have hfds : (h.edit fd fun p => { p with stage := .closed }).fds = h.fds :=
      Hand.fds_edit fun _ _ _ => rfl
    have hsub : (h.next dir K (.close fd) r).fds.Sublist
        (h.edit fd fun p => { p with stage := .closed }).fds :=
      List.Sublist.append_left (List.Sublist.map _ List.filter_sublist) _
    rw [hfds] at hsub
    exact hsub.nodup hrest.nodup
  cache := hrest.cache
  putItems := by
    intro g hg
    obtain ⟨hne, hmem⟩ := hrest.putItems_nodup.mem_erase_iff.mp hg
    obtain ⟨p, hp, hfd, hstage, hkey⟩ := hrest.putItems g hmem
    have hsame : (if p.fd = fd then { p with stage := .closed } else p) = p := by
      refine if_neg ?_
      rw [hfd]
      exact hne
    exact ⟨p, List.mem_map.mpr ⟨p, hp, hsame⟩, hfd, hstage, hkey⟩
  items := by
    intro g hg
    obtain ⟨hne, hmem⟩ := hrest.items_nodup.mem_erase_iff.mp hg
    obtain ⟨x, hx, hfd, hkey⟩ := hrest.items g hmem
    refine ⟨x, List.mem_filter.mpr ⟨hx, ?_⟩, hfd, hkey⟩
    rw [decide_eq_true_eq, hfd]
    exact hne
  putItems_nodup := hrest.putItems_nodup.erase fd
  items_nodup := hrest.items_nodup.erase fd

/-- A `PutItem` is none of the `Item`s. -/
theorem Rests.apart (hrest : Rests dir t h) (hput : fd ∈ t.putItems) : fd ∉ t.items := by
  intro hitem
  obtain ⟨p, hp, hpfd, -⟩ := hrest.putItems fd hput
  obtain ⟨x, hx, rfl, -⟩ := hrest.items fd hitem
  exact Hand.ne_of_reading hrest.nodup hx p hp hpfd

end Rests

/-- The operations of processes that use a cache in one directory, with names as keys. -/
def keyed (dir : Text) : CacheOp → Prop
  | .initCache cacheDir _ _ => cacheDir = dir
  | .put key _ | .putData key _ | .putItem key | .get key | .del key => IsKey key
  | _ => True

instance (dir : Text) : DecidablePred (keyed dir)
  | .initCache cacheDir _ _ => inferInstanceAs (Decidable (cacheDir = dir))
  | .put key _ | .putData key _ | .putItem key | .get key | .del key =>
    inferInstanceAs (Decidable (IsKey key))
  | .writePutItem _ _ | .seekPutItem _ _ | .destroyPutItem _ | .destroyEmptyPutItem | .closeItem _
  | .clear | .purge => isTrue trivial

/-- An operation that leaves everything as it was. -/
theorem Rests.answered_goes {t : Session} {op : CacheOp} {p : Sys Bool} (hrest : Rests dir t h)
    (hop : h.op = some op) (hputs : ∀ key fileName, op ≠ .put key fileName)
    (hputData : ∀ key data, op ≠ .putData key data) (hp : Goes dir (fun _ h' => h' = h) p h) :
    Goes dir (AtRest dir) (do
      let result ← p
      pure { t with answer := result }) h := by
  refine hp.bind ?_
  rintro result _ rfl
  exact (hrest.answer result).done hop hputs hputData

/-- Every operation keeps to the rules. -/
theorem run_goes {t : Session} {op : CacheOp} (hop : keyed dir op) (h₀ : AtRest dir t h) :
    Goes dir (AtRest dir) (op.run t) { h with op := some op, turn := h.turn + 1 } := by
  have hrest := h₀.toRests.started op
  have hinfo := fun f hf => (hrest.cache f hf).1
  cases op with
  | initCache cacheDir size purgeSize =>
      obtain rfl := hop
      refine (initCache_goes hrest.toOutside size purgeSize hrest.cache).bind ?_
      intro r h' hopened
      obtain ⟨fds, rfl⟩ := hopened.grown
      have hrest' : Rests cacheDir { t with cache := r.2, answer := r.1 } _ :=
        ⟨hopened.outside, hopened.info, hrest.putItems, hrest.items, hrest.putItems_nodup, hrest.items_nodup⟩
      exact hrest'.done rfl nofun nofun
  | put key fileName =>
      refine (put_goes hrest.toOutside hrest.cache hop rfl).bind ?_
      exact fun r h' hput => hrest.put (.inl ⟨fileName, rfl⟩) hput
  | putData key data =>
      refine (putData_goes hrest.toOutside hrest.cache hop rfl).bind ?_
      exact fun r h' hput => hrest.put (.inr ⟨data, rfl⟩) hput
  | putItem key =>
      refine (putItem_goes hrest.toOutside hrest.cache hop rfl).bind ?_
      rintro ⟨r, fd⟩ h' (⟨rfl, rfl⟩ | ⟨p, rfl, hp, rfl, hstage⟩)
      · exact (hrest.answer r).done rfl nofun nofun
      · exact ((hrest.putItem hp rfl hstage).answer r).done rfl nofun nofun
  | writePutItem fd bytes =>
      rw [CacheOp.run]
      split
      next hfd =>
        obtain ⟨p, hp, hpfd, hstage, -⟩ := hrest.putItems fd hfd
        refine goes_call.mpr ⟨.inr ⟨p, hp, hpfd, hstage⟩, fun K r _ => ?_⟩
        cases r with
        | none =>
            have hedit := hrest.edit fd (g := fun p => { p with failed := true }) fun _ => ⟨rfl, rfl, rfl⟩
            exact (hedit.answer _).done rfl nofun nofun
        | some n =>
            have hedit := hrest.edit fd (g := fun p => { p with
              bytes := overwrite p.bytes p.offset bytes
              offset := p.offset + bytes.length }) fun _ => ⟨rfl, rfl, rfl⟩
            exact (hedit.answer _).done rfl nofun nofun
      · exact (hrest.answer false).done rfl nofun nofun
  | seekPutItem fd pos =>
      rw [CacheOp.run]
      split
      next hfd =>
        obtain ⟨p, hp, hpfd, hstage, -⟩ := hrest.putItems fd hfd
        refine goes_call.mpr ⟨.inr ⟨p, hp, hpfd, hstage⟩, fun K r _ => ?_⟩
        cases r with
        | false => exact (hrest.answer false).done rfl nofun nofun
        | true =>
            have hedit := hrest.edit fd (g := fun p => { p with offset := pos }) fun _ => ⟨rfl, rfl, rfl⟩
            exact (hedit.answer true).done rfl nofun nofun
      · exact (hrest.answer false).done rfl nofun nofun
  | destroyPutItem fd =>
      rw [CacheOp.run]
      split
      next hfd =>
        obtain ⟨p, hp, rfl, hstage, hkey⟩ := hrest.putItems fd hfd
        refine (destroyPutItem_goes hrest.toOutside hinfo hp hstage hkey).bind ?_
        rintro - _ ⟨K, r, rfl⟩
        have hclose := hrest.close p.fd K r
        rw [List.erase_of_not_mem (hrest.apart hfd)] at hclose
        exact (hclose.answer true).done rfl nofun nofun
      · exact (hrest.answer false).done rfl nofun nofun
  | destroyEmptyPutItem =>
      refine (destroyEmptyPutItem_goes hrest.toOutside hinfo).bind ?_
      rintro - _ rfl
      exact (hrest.answer true).done rfl nofun nofun
  | get key =>
      refine (get_goes hrest.toOutside hrest.cache hop rfl).bind ?_
      rintro ⟨r, fd⟩ h' (⟨rfl, rfl⟩ | ⟨x, rfl, hnew, rfl, hpath, hxop⟩)
      · exact (hrest.answer r).done rfl nofun nofun
      · exact ((hrest.get hnew hop hxop hpath).answer r).done rfl nofun nofun
  | closeItem fd =>
      rw [CacheOp.run]
      split
      next hfd =>
        obtain ⟨x, hx, hxfd, -⟩ := hrest.items fd hfd
        refine goes_call.mpr ⟨.inl ⟨x, hx, hxfd⟩, fun K r _ => ?_⟩
        have hclose := hrest.close fd K r
        rw [List.erase_of_not_mem fun hput => hrest.apart hput hfd] at hclose
        exact (hclose.answer r).done rfl nofun nofun
      · exact (hrest.answer false).done rfl nofun nofun
  | del key =>
      exact hrest.answered_goes rfl nofun nofun (del_goes hrest.toOutside hrest.cache hop)
  | clear => exact hrest.answered_goes rfl nofun nofun (clear_goes hrest.toOutside hrest.cache)
  | purge => exact hrest.answered_goes rfl nofun nofun (purge_goes hrest.toOutside hrest.cache)

end Skunk.BesUtils
