import Skunk.BesUtils.Eviction

/-!
# A cache without a limit

A cache that is initialised with size zero is meant to be unlimited. But no recorded size is less than zero, so
each `purge` of such a cache goes on to remove items, and it removes at least one unless somebody has a lock on
every item.
-/

namespace Skunk.BesUtils

open Effect Posix Container

/-- Somebody has a lock on every item. -/
def AllHeld (home : List Text) (K : Kernel) : Prop := ∀ e ∈ itemsIn home K, isHeld K e = true

instance (home : List Text) (K : Kernel) : Decidable (AllHeld home K) :=
  inferInstanceAs (Decidable (∀ e ∈ itemsIn home K, isHeld K e = true))

/-! ## A purge that finds all items locked -/

/-- The files are those of `K₀`, and all items among them are locked. -/
structure Guarded (home : List Text) (K₀ K : Kernel) : Prop where
  wf : K.Wf
  files : K.files = K₀.files
  locked : ∀ e ∈ K₀.files, IsItem home e.1 → K.Locked e.2

/-- The calls of `purge` that come before the loop that removes files. -/
def purgeLooks : SysCall → Bool
  | .flock _ _ _ | .seek _ _ | .read _ _ | .readdir _ | .stat _ => true
  | _ => false

section Held

variable {may : SysCall → Bool} {i f : Nat} {fc : FileCache} {home : List Text} {K₀ K K' : Kernel} {t : Record}

theorem AllHeld.guarded (h : AllHeld home K) (hwf : K.Wf) : Guarded home K K where
  wf := hwf
  files := rfl
  locked := fun _ he hitem =>
    (isHeld_iff hwf).mp (h _ (mem_itemsIn.mpr ⟨Kernel.mem_entries_of_file he, hitem⟩))

theorem Guarded.does (h : Guarded home K₀ K) {c : SysCall} (hc : purgeLooks c = true) {r : c.Reply}
    (hdoes : Kernel.Does may i c K r K') : Guarded home K₀ K' where
  wf := h.wf.does hdoes
  files := by
    rw [← h.files]
    cases c with
    | flock | seek | read | readdir | stat => exact files_of_does rfl hdoes
    | _ => cases hc
  locked := by
    intro e he hitem
    cases c with
    | flock | seek | read | readdir | stat => exact (h.locked e he hitem).does h.wf rfl hdoes
    | _ => cases hc

theorem Guarded.runs {α : Type} {p : Sys α} {a : α} (h : Guarded home K₀ K)
    (hp : p.Every fun c => purgeLooks c = true) (hrun : p.Runs (Kernel.Does may i) K t a K') :
    Guarded home K₀ K' :=
  hrun.preserves hp (fun _ _ _ _ hc hdoes h => h.does hc hdoes) h

/-- A locked item is passed over. -/
theorem Guarded.passed (h : Guarded home K₀ K) {ino : Nat} (hlocked : K.Locked ino) (hino : ino < K.nextIno)
    {path : Text} {removed size r : Nat}
    (hrun : (withItem K.nextFd do
      let locked ← lockTheItem K.nextFd .exclusive true
      if locked then
        let gone ← call (.remove path)
        pure (if gone then (removed + size) % 2 ^ 64 else removed)
      else pure removed).Runs (Kernel.Does may i) (K.addOpen i ino) t r K') :
    r = removed ∧ Guarded home K₀ K' := by
  obtain ⟨t', K₁, closed, rfl, hbody, hclose⟩ := runs_withItem hrun
  obtain rfl := Kernel.does_close hclose
  obtain ⟨t₁, t₂, locked, K₂, rfl, hlock, hrest⟩ := Prog.runs_bind.mp hbody
  obtain ⟨granted, K₃, t₃, hflock, rfl, hgranted⟩ := runs_call_bind.mp hlock
  have hwf' : (K.addOpen i ino).Wf := h.wf.addOpen i hino
  rcases Kernel.does_flock Kernel.addOpen_opened_self hflock with ⟨-, hgrants, -⟩ | ⟨rfl, rfl⟩
  · -- the lock is not granted while somebody else has one
    obtain ⟨fd, o, ho, hoino, holock⟩ := hlocked
    have hne : fd ≠ K.nextFd := Nat.ne_of_lt (h.wf.fd_lt fd o ho)
    rcases (Kernel.grants_iff hwf').mp hgrants fd o ((Kernel.addOpen_opened_of_ne hne).trans ho) hne hoino with
      hnone | ⟨-, hmode⟩
    · exact absurd hnone holock
    · cases hmode
  obtain ⟨-, rfl, rfl⟩ := hgranted
  obtain ⟨-, rfl, rfl⟩ := hrest
  refine ⟨rfl, (hwf'.does hclose), h.files, ?_⟩
  intro e he hitem
  exact (h.locked e he hitem).of_opened h.wf fun fd _ => congrFun (opened_closed h.wf _) fd

/-- The pathnames that `files_in_cache` may return. -/
def IsItemPath (fc : FileCache) (path : Text) : Prop :=
  ∃ n, IsFileName n ∧ n ≠ cacheInfoName ∧ path = fc.keyFileName n

/-- The loop of `purge` passes over all items. -/
theorem runs_removeItems_held (hnul : '\x00' ∉ fc.cacheDir) {purgeSize : Nat} {items : List FileCache.ItemInfo}
    (hitems : ∀ item ∈ items, IsItemPath fc item.name) {removed : Nat} {r : Option Nat}
    (h : Guarded (resolve fc.cacheDir) K₀ K)
    (hrun : (FileCache.removeItems purgeSize items removed).Runs (Kernel.Does may i) K t r K') :
    Guarded (resolve fc.cacheDir) K₀ K' := by
  induction items generalizing K removed t with
  | nil =>
      obtain ⟨-, -, rfl⟩ := hrun
      exact h
  | cons item items ih =>
      obtain ⟨⟨n, hn, hinfo, hname⟩, hitems⟩ := List.forall_mem_cons.mp hitems
      rw [FileCache.removeItems] at hrun
      split at hrun
      · obtain ⟨-, -, rfl⟩ := hrun
        exact h
      obtain ⟨opened, K₁, t₁, hopen, rfl, hnext⟩ := runs_call_bind.mp hrun
      rcases Kernel.does_openWrite hopen with ⟨rfl, rfl⟩ | ⟨ino, hino, rfl, rfl⟩
      · obtain ⟨-, -, rfl⟩ := hnext
        exact h
      -- what has been opened is an item, so it is locked
      obtain ⟨loc, hloc, hlookup⟩ := Option.bind_eq_some_iff.mp hino
      have hmem := h.wf.lookup_files.mp hlookup
      rw [hname] at hloc
      have hitem : IsItem (resolve fc.cacheDir) loc :=
        isItem_iff.mpr ⟨n, locate_pathConcat hnul hn hloc, hinfo⟩
      have hlocked := h.locked _ (h.files ▸ hmem) hitem
      have hlt := h.wf.entry_lt _ (Kernel.mem_entries_of_file hmem)
      obtain ⟨t₂, t₃, removed', K₂, rfl, htry, hloop⟩ := Prog.runs_bind.mp hnext
      obtain ⟨rfl, h₂⟩ := h.passed hlocked hlt htry
      exact ih hitems h₂ hloop

/-- `files_in_cache` returns pathnames of items. -/
theorem runs_filesInCache_paths (hwf : K.Wf) {files : List Text}
    (hrun : fc.filesInCache.Runs (Kernel.Does may i) K t (some files) K') :
    ∀ file ∈ files, IsItemPath fc file := by
  obtain ⟨names, K₁, t', hdoes, rfl, -, hfiles, rfl⟩ := runs_call_bind.mp hrun
  obtain ⟨-, rfl | hexec⟩ := Kernel.does_readdir hdoes
  · cases hfiles
  obtain ⟨listed, rfl, rfl⟩ := Option.map_eq_some_iff.mp hfiles.symm
  obtain ⟨loc, -, hlisted⟩ := Option.bind_eq_some_iff.mp (Prod.mk.inj (Option.some.inj hexec)).1
  split at hlisted
  swap
  · cases hlisted
  obtain rfl := Option.some.inj hlisted
  intro file hfile
  obtain ⟨n, hn, rfl⟩ := List.mem_map.mp hfile
  rw [List.mem_filter, decide_eq_true_eq] at hn
  obtain ⟨hmem, hdot, hdots, hinfo⟩ := hn
  refine ⟨n, ?_, hinfo, rfl⟩
  obtain ⟨ino, hentry⟩ := Kernel.mem_listing.mp (List.mem_of_ne_of_mem hdots (List.mem_of_ne_of_mem hdot hmem))
  exact hwf.names _ hentry n (List.mem_append_right _ (List.mem_singleton_self n))

theorem mem_insertItem {item x : FileCache.ItemInfo} {items : List FileCache.ItemInfo}
    (h : x ∈ FileCache.insertItem item items) : x = item ∨ x ∈ items := by
  induction items with
  | nil => exact .inl (List.mem_singleton.mp h)
  | cons y items ih =>
      rw [FileCache.insertItem] at h
      split at h
      · rcases List.mem_cons.mp h with rfl | h
        · exact .inr List.mem_cons_self
        · exact (ih h).imp_right (List.mem_cons_of_mem y)
      · exact List.mem_cons.mp h

/-- The items that have been looked at have the names of the files. -/
theorem runs_statFiles_paths {files : List Text} {items items' : List FileCache.ItemInfo}
    (hfiles : ∀ file ∈ files, IsItemPath fc file) (hitems : ∀ item ∈ items, IsItemPath fc item.name)
    (hrun : (FileCache.statFiles files items).Runs (Kernel.Does may i) K t (some items') K') :
    ∀ item ∈ items', IsItemPath fc item.name := by
  induction files generalizing K items t with
  | nil =>
      obtain ⟨-, hsame, -⟩ := hrun
      obtain rfl := Option.some.inj hsame
      exact hitems
  | cons file files ih =>
      obtain ⟨hfile, hfiles⟩ := List.forall_mem_cons.mp hfiles
      obtain ⟨sb, K₁, t', -, rfl, hrest⟩ := runs_call_bind.mp hrun
      cases sb with
      | none =>
          obtain ⟨-, hnone, -⟩ := hrest
          cases hnone
      | some sb =>
          refine ih hfiles ?_ hrest
          intro item hitem
          rcases mem_insertItem hitem with rfl | hitem
          · exact hfile
          · exact hitems item hitem

/-- Where all items are locked, `purge` removes none, whatever goes wrong. -/
theorem runs_purge_held (hnul : '\x00' ∉ fc.cacheDir) (hwf : K.Wf) (hheld : AllHeld (resolve fc.cacheDir) K)
    {b : Bool} (hrun : fc.purge.Runs (Kernel.Does may i) K t b K') : K'.files = K.files := by
  rw [purge_eq] at hrun
  rcases runs_withCacheLock hrun with
    ⟨-, -, -, rfl⟩ | ⟨info, locked, K₁, t', K₂, r, -, hlock, -, hunlock, hbody⟩
  · rfl
  rw [files_of_does rfl hunlock]
  -- all items are guarded, and no part of the body removes what is guarded
  have h₁ := (hheld.guarded hwf).does rfl hlock
  rcases hbody with ⟨-, hbody⟩ | ⟨-, -, -, rfl⟩
  swap
  · exact h₁.files
  obtain ⟨t₁, t₂, recorded, K₃, rfl, hget, hrest⟩ := Prog.runs_bind.mp hbody
  have h₃ := h₁.runs (every_getCacheInfoSize rfl rfl) hget
  split at hrest
  · obtain ⟨-, -, rfl⟩ := hrest
    exact h₃.files
  obtain ⟨t₄, t₅, files, K₄, rfl, hfiles, hrest⟩ := Prog.runs_bind.mp hrest
  have h₄ := h₃.runs (show fc.filesInCache.Every _ from ⟨rfl, fun _ => trivial⟩) hfiles
  cases files with
  | none =>
      obtain ⟨-, -, rfl⟩ := hrest
      exact h₄.files
  | some files =>
      obtain ⟨t₆, t₇, items, K₅, rfl, hstat, hrest⟩ := Prog.runs_bind.mp hrest
      have h₅ := h₄.runs (every_statFiles (fun _ => rfl) files []) hstat
      cases items with
      | none =>
          obtain ⟨-, -, rfl⟩ := hrest
          exact h₅.files
      | some items =>
          have hpaths := runs_statFiles_paths (runs_filesInCache_paths h₃.wf hfiles) (List.forall_mem_nil _) hstat
          obtain ⟨t₈, t₉, removed, K₆, rfl, hloop, hrest⟩ := Prog.runs_bind.mp hrest
          have h₆ := runs_removeItems_held hnul hpaths h₅ hloop
          refine Eq.trans ?_ h₆.files
          cases removed with
          | none =>
              obtain ⟨-, -, rfl⟩ := hrest
              rfl
          | some removed =>
              obtain ⟨left, K₇, t₁₀, hsubtract, -, hupdate⟩ := runs_call_bind.mp hrest
              have hnames : (updateCacheInfoSize info left).Every fun c => keepsNames c = true :=
                every_updateCacheInfoSize rfl fun _ => rfl
              rw [← files_of_does rfl hsubtract]
              exact hupdate.preserves hnames
                (fun c K r K' hc hdoes hK => (files_of_does hc hdoes).trans hK) rfl

end Held

/-! ## A purge that removes nothing -/

/-- The calls that make no file. -/
def makesNone : SysCall → Bool
  | .create _ | .mkdirP _ => false
  | _ => true

section Free

variable {i f : Nat} {fc : FileCache} {K K' : Kernel} {t : Record}

theorem not_mem_of_does {may : SysCall → Bool} {c : SysCall} (hc : makesNone c = true) {r : c.Reply}
    (h : Kernel.Does may i c K r K') {e : List Text × Nat} (he : e ∉ K.files) : e ∉ K'.files := by
  cases c with
  | create | mkdirP => cases hc
  | remove path =>
      rcases Kernel.does_remove h with ⟨-, rfl⟩ | ⟨loc, n, -, -, -, rfl⟩
      · exact he
      · exact fun hmem => he (List.mem_of_mem_filter hmem)
  | _ =>
      rw [files_of_does rfl h]
      exact he

/-- If the loop has removed nothing, all items were locked. -/
theorem held_of_removeItems {purgeSize : Nat} (hnul : '\x00' ∉ fc.cacheDir) {queue : List (List Text × Nat)}
    {items : List FileCache.ItemInfo} {r : Option Nat} (hwf : K.Wf) (hreach : InReach fc K)
    (hitems : List.Forall₂ (fun item e => item.name = pathOf fc e) items queue)
    (hqueue : ∀ e ∈ queue, e ∈ itemsIn (resolve fc.cacheDir) K)
    (hrun : (FileCache.removeItems purgeSize items 0).Runs (Kernel.Works i) K t r K')
    (hok : ∀ e ∈ t, succeeded e = true) (hsame : K'.files = K.files) : ∀ e ∈ queue, isHeld K e = true := by
  induction queue generalizing K items t with
  | nil => exact List.forall_mem_nil _
  | cons e queue ih =>
      obtain ⟨item, rest, hname, hrest, rfl⟩ := List.forall₂_cons_right_iff.mp hitems
      obtain ⟨he, hqueue⟩ := List.forall_mem_cons.mp hqueue
      rcases runs_removeItems_cons hnul hwf hreach he hname (Nat.not_lt_zero _) hrun with
        ⟨-, -, x, hx, hfailed⟩ | ⟨t₁, t₂, removed, K₁, rfl, hround, hloop⟩
      · rw [hok x hx] at hfailed
        cases hfailed
      rcases hround with ⟨hheld, rfl, hev⟩ | ⟨-, -, hev, hfile⟩
      · have hfiles : K₁.files = K.files := by rw [hev.files, (Evicted.refl hwf).files.symm]
        have hkept : ∀ x ∈ queue, x ∈ itemsIn (resolve fc.cacheDir) K₁ := fun x hx =>
          hev.item (hqueue x hx) List.not_mem_nil
        have hall := ih hev.wf (hreach.mono hev.folders) hrest hkept hloop
          (List.forall_mem_append.mp hok).2 (hsame.trans hfiles.symm)
        refine List.forall_mem_cons.mpr ⟨hheld, fun x hx => ?_⟩
        rw [← hev.held hwf]
        exact hall x hx
      · -- what has been removed does not come back
        have hgone : e ∉ K₁.files := by
          rw [hev.files]
          simp
        have hevery := every_removeItems (P := fun c => makesNone c = true) (fun _ => rfl) (fun _ => rfl)
          (fun _ => rfl) (fun _ => rfl) (fun _ => rfl) purgeSize rest removed
        have hgone' : e ∉ K'.files :=
          hloop.preserves hevery (fun c K r K' hc hdoes h => not_mem_of_does hc hdoes h) hgone
        rw [hsame] at hgone'
        exact absurd hfile hgone'

/-- If no call has failed and a `purge` without a maximum has removed nothing, all items were locked. -/
theorem held_of_purge (hnul : '\x00' ∉ fc.cacheDir) (hmax : fc.maxCacheSizeInBytes = 0)
    (hinfo : fc.cacheInfoFd = some f) (hwf : K.Wf)
    (hother : ∀ o, K.opened f = some o → ∀ e ∈ itemsIn (resolve fc.cacheDir) K, e.2 ≠ o.ino) {b : Bool}
    (hrun : fc.purge.Runs (Kernel.Works i) K t b K') (hok : ∀ e ∈ t, succeeded e = true)
    (hsame : K'.files = K.files) : AllHeld (resolve fc.cacheDir) K := by
  rw [purge_eq] at hrun
  rcases runs_withCacheLock hrun with
    ⟨hnone, -⟩ | ⟨f', locked, K₁, t', K₂, r, hf, hlock, rfl, hunlock, hbody⟩
  · rw [hinfo] at hnone
    cases hnone
  rw [hinfo] at hf
  obtain rfl := Option.some.inj hf
  obtain ⟨hlocked, hrest⟩ := List.forall_mem_cons.mp hok
  obtain ⟨hbodyOk, -⟩ := List.forall_mem_append.mp hrest
  have hlocked : locked = true := hlocked
  subst hlocked
  obtain ⟨-, hbody⟩ | ⟨hfalse, -⟩ := hbody
  swap
  · cases hfalse
  have hwf₁ := hwf.does hlock
  cases ho : K.opened f with
  | none =>
      have hexec := Kernel.works_iff.mp hlock
      rw [Kernel.exec, ho] at hexec
      cases hexec
  | some o =>
      obtain ⟨-, -, rfl⟩ | ⟨hfalse, -⟩ := Kernel.does_flock ho hlock
      swap
      · cases hfalse
      obtain ⟨K₀, ⟨pos, rfl⟩, hwf₀, hcases⟩ :=
        runs_purgeLocked_cases hnul hwf₁ Kernel.setOpen_opened_self hbody hbodyOk
      rcases hcases with
        ⟨hlt, -, -⟩ | ⟨-, hreach, queue, t₁, t₂, removed, K₃, hordered, hremove, hrest, hok₁, -⟩
      · -- without a maximum no recorded size is below it
        rw [hmax] at hlt
        exact absurd hlt (Nat.not_lt_zero _)
      have hnames : (purgeRest f (sizeIn (K.data o.ino)) removed).Every fun c => keepsNames c = true := by
        cases removed with
        | none => exact trivial
        | some removed => exact ⟨rfl, fun left => every_updateCacheInfoSize rfl fun _ => rfl⟩
      have hfiles : K₂.files = K₃.files := hrest.preserves hnames
        (Q := fun K => K.files = K₃.files) (fun c K r K' hc hdoes hK => (files_of_does hc hdoes).trans hK) rfl
      have hinfos : ∀ K₀, List.Forall₂ (fun item e => item.name = pathOf fc e) (queue.map (itemInfo fc K₀))
          queue := by
        intro K₀
        rw [List.forall₂_map_left_iff, List.forall₂_same]
        exact fun e _ => rfl
      -- nothing is gone, though the loop looked at every item
      have hheld := held_of_removeItems hnul hwf₀ hreach (hinfos _) (fun e he => hordered.1.mem_iff.mp he) hremove
        hok₁ (hfiles.symm.trans ((files_of_does rfl hunlock).symm.trans hsame))
      intro e he
      have hheld₀ := hheld e (hordered.1.mem_iff.mpr he)
      rw [setOpen_setOpen] at hheld₀ hwf₀
      rwa [held_setOpen hwf hwf₀ ho rfl (hother o ho e he)] at hheld₀

end Free

/-! ## What a process does with a cache -/

section Initialised

variable {may : SysCall → Bool} {i : Nat} {fc fc' : FileCache} {dir : Text} {K K' : Kernel} {t : Record}

/-- The object has a descriptor for the `cache_info` that is in its directory. -/
def OpensInfo (fc : FileCache) (K : Kernel) : Prop :=
  ∃ f o, fc.cacheInfoFd = some f ∧ K.opened f = some o ∧
    (resolve fc.cacheDir ++ [cacheInfoName], o.ino) ∈ K.files

theorem opensInfo_openCacheInfo (hnul : '\x00' ∉ fc.cacheDir) (hwf : K.Wf)
    (hrun : fc.openCacheInfo.Runs (Kernel.Does may i) K t (true, fc') K') :
    (∃ f, fc' = { fc with cacheInfoFd := some f }) ∧ OpensInfo fc' K' := by
  rw [FileCache.openCacheInfo] at hrun
  split at hrun
  · obtain ⟨-, hfalse, -⟩ := hrun
    cases hfalse
  obtain ⟨created, K₁, t₁, hcreate, rfl, hrest⟩ := runs_call_bind.mp hrun
  have hhome : ∀ loc, K.locate (fc.keyFileName cacheInfoName) = some loc →
      loc = resolve fc.cacheDir ++ [cacheInfoName] := fun loc hloc =>
    locate_pathConcat hnul isFileName_cacheInfoName hloc
  rcases Kernel.does_create hcreate with ⟨rfl, rfl⟩ | ⟨loc, hloc, -, rfl, rfl⟩
  · obtain ⟨opened, K₂, t₂, hopen, rfl, -, hresult, rfl⟩ := runs_call_bind.mp hrest
    obtain ⟨hopened, rfl⟩ := Prod.mk.inj hresult
    rcases Kernel.does_openWrite hopen with ⟨rfl, -⟩ | ⟨ino, hino, rfl, rfl⟩
    · cases hopened
    obtain ⟨loc, hloc, hlookup⟩ := Option.bind_eq_some_iff.mp hino
    obtain rfl := hhome loc hloc
    exact ⟨⟨_, rfl⟩, _, _, rfl, Kernel.addOpen_opened_self, hwf.lookup_files.mp hlookup⟩
  · obtain rfl := hhome loc hloc
    obtain ⟨written, K₂, t₂, hwrite, rfl, -, hresult, rfl⟩ := runs_call_bind.mp hrest
    obtain ⟨hwritten, rfl⟩ := Prod.mk.inj hresult
    rcases Kernel.does_write Kernel.addFile_opened_self hwrite with ⟨rfl, -⟩ | ⟨n, -, -, -, rfl⟩
    · cases hwritten
    · exact ⟨⟨_, rfl⟩, _, _, rfl, Kernel.setOpen_opened_self, List.mem_cons_self⟩

/-- After `initialize` the object has its directory, its sizes and its descriptor. -/
theorem opensInfo_initCache (hnul : '\x00' ∉ dir) (hwf : K.Wf) {size purgeSize : Int}
    (hrun : (fc.initCache dir size purgeSize).Runs (Kernel.Does may i) K t (true, fc') K') :
    fc'.cacheDir = dir ∧ fc'.maxCacheSizeInBytes = size.toNat ∧ OpensInfo fc' K' := by
  rw [FileCache.initCache] at hrun
  split at hrun
  · obtain ⟨-, hfalse, -⟩ := hrun
    cases hfalse
  obtain ⟨found, K₁, t₁, hstat, rfl, hrest⟩ := runs_call_bind.mp hrun
  -- what is left once the directory has been looked for
  have hopens : ∀ (there : Bool) {K₂ : Kernel} {t₂ : Record}, K₂.Wf →
      (if there = true then do
        let opened ← FileCache.openCacheInfo { fc with cacheDir := dir }
        if opened.1 = true then
          pure (true, { opened.2 with maxCacheSizeInBytes := size.toNat, purgeSize := purgeSize.toNat })
        else pure (false, opened.2)
      else pure (false, fc) : Sys (Bool × FileCache)).Runs (Kernel.Does may i) K₂ t₂ (true, fc') K' →
      fc'.cacheDir = dir ∧ fc'.maxCacheSizeInBytes = size.toNat ∧ OpensInfo fc' K' := by
    intro there K₂ t₂ hwf₂ hrest
    cases there with
    | false =>
        obtain ⟨-, hfalse, -⟩ := hrest
        cases hfalse
    | true =>
        obtain ⟨t₃, t₄, ⟨opened, fc₁⟩, K₃, rfl, hopen, hresult⟩ := Prog.runs_bind.mp hrest
        cases opened with
        | false =>
            obtain ⟨-, hfalse, -⟩ := hresult
            cases hfalse
        | true =>
            obtain ⟨-, heq, rfl⟩ := hresult
            obtain ⟨-, rfl⟩ := Prod.mk.inj heq
            have hnul' : '\x00' ∉ ({ fc with cacheDir := dir } : FileCache).cacheDir := hnul
            obtain ⟨⟨f, rfl⟩, hinfo⟩ := opensInfo_openCacheInfo hnul' hwf₂ hopen
            exact ⟨rfl, rfl, hinfo⟩
  have hwf₁ := hwf.does hstat
  cases found with
  | some sb => exact hopens true hwf₁ hrest
  | none =>
      obtain ⟨_, K₂, t₂, hmade, -, found, K₃, t₃, hfound, -, hrest⟩ := hrest
      exact hopens found.isSome ((hwf₁.does hmade).does hfound) hrest

end Initialised

/-- The operations that put. -/
def Puts : CacheOp → Prop
  | .put _ _ | .putData _ _ | .putItem _ | .writePutItem _ _ | .seekPutItem _ _ | .destroyPutItem _
  | .destroyEmptyPutItem => True
  | _ => False

/-- An operation that has been run, with its calls. -/
structure Operation where
  before : Kernel
  op : CacheOp
  record : Record
  after : Kernel

/-- What a process does with its cache: it puts and purges, one operation after the other, and the operations are
listed. In between anybody may make any call, and time passes. -/
inductive History (may : SysCall → Bool) (i : Nat) : Session → Kernel → List Operation → Session → Kernel → Prop
  | nil (s : Session) (K : Kernel) : History may i s K [] s K
  | operation {s s₁ s' : Session} {K K₁ K' : Kernel} {t : Record} {ops : List Operation} {op : CacheOp}
      (hop : Puts op ∨ op = .purge) (hrun : (op.run s).Runs (Kernel.Does may i) K t s₁ K₁)
      (hrest : History may i s₁ K₁ ops s' K') : History may i s K (⟨K, op, t, K₁⟩ :: ops) s' K'
  | call {s s' : Session} {K K₁ K' : Kernel} {ops : List Operation} {j : Nat} {c : SysCall} {r : c.Reply}
      (hdoes : Kernel.Does may j c K r K₁) (hrest : History may i s K₁ ops s' K') : History may i s K ops s' K'
  | drift {s s' : Session} {K K₁ K' : Kernel} {ops : List Operation} (hdrift : Kernel.Drift K K₁)
      (hrest : History may i s K₁ ops s' K') : History may i s K ops s' K'

section History

variable {may : SysCall → Bool} {i : Nat} {s s' : Session} {K K' : Kernel} {t : Record} {ops : List Operation}

theorem runs_then_pure {α β : Type} {p : Sys α} {g : α → β} {b : β}
    (h : (p >>= fun a => pure (g a)).Runs (Kernel.Does may i) K t b K') : ∃ a, b = g a := by
  obtain ⟨t₁, t₂, a, K₁, -, -, -, rfl, -⟩ := Prog.runs_bind.mp h
  exact ⟨a, rfl⟩

/-- To put or to purge does not change the object. -/
theorem cache_of_runs {op : CacheOp} (hop : Puts op ∨ op = .purge)
    (h : (op.run s).Runs (Kernel.Does may i) K t s' K') : s'.cache = s.cache := by
  cases op with
  | put | putData | putItem | destroyEmptyPutItem | purge =>
      obtain ⟨a, rfl⟩ := runs_then_pure h
      rfl
  | writePutItem | seekPutItem | destroyPutItem =>
      rw [CacheOp.run] at h
      split at h
      · obtain ⟨a, rfl⟩ := runs_then_pure h
        rfl
      · obtain ⟨-, rfl, -⟩ := h
        rfl
  | initCache | get | closeItem | del | clear =>
      rcases hop with hop | hop
      · exact hop.elim
      · cases hop

/-- What a process finds when it begins an operation: its object is the one that it had, and the kernel is a
later state. -/
theorem History.before (h : History may i s K ops s' K') (hwf : K.Wf) :
    ∀ x ∈ ops, x.before.Wf ∧ K.Later x.before ∧ ∃ s₁ s₂, s₁.cache = s.cache ∧
      (x.op.run s₁).Runs (Kernel.Does may i) x.before x.record s₂ x.after := by
  induction h with
  | nil => exact List.forall_mem_nil _
  | @operation s s₁ s' K K₁ K' t ops op hop hrun hrest ih =>
      refine List.forall_mem_cons.mpr ⟨⟨hwf, .refl K, s, s₁, rfl, hrun⟩, fun x hx => ?_⟩
      obtain ⟨hwf₁, hlater₁⟩ := later_of_runs hrun hwf
      obtain ⟨hwf', hlater, t₁, t₂, hcache, hrun'⟩ := ih hwf₁ x hx
      exact ⟨hwf', hlater₁.trans hlater, t₁, t₂, hcache.trans (cache_of_runs hop hrun), hrun'⟩
  | call hdoes hrest ih =>
      intro x hx
      obtain ⟨hwf', hlater, hrun⟩ := ih (hwf.does hdoes) x hx
      exact ⟨hwf', (Kernel.later_of_does hdoes).trans hlater, hrun⟩
  | drift hdrift hrest ih =>
      intro x hx
      obtain ⟨hwf', hlater, hrun⟩ := ih (hwf.drift hdrift) x hx
      exact ⟨hwf', hdrift.later.trans hlater, hrun⟩

/-- A descriptor for `cache_info` never becomes one for an item. -/
theorem info_ne_item {fc : FileCache} {f : Nat} {o o' : OpenFile} (hwf : K.Wf) (hlater : K.Later K')
    (ho : K.opened f = some o) (hinfo : (resolve fc.cacheDir ++ [cacheInfoName], o.ino) ∈ K.files)
    (ho' : K'.opened f = some o') : ∀ e ∈ itemsIn (resolve fc.cacheDir) K', e.2 ≠ o'.ino := by
  intro e he hino
  obtain ⟨y, hy, hyino⟩ := hlater.opened f o' (hwf.fd_lt f o ho) ho'
  rw [ho] at hy
  obtain rfl := Option.some.inj hy
  obtain ⟨hentry, hitem⟩ := mem_itemsIn.mp he
  rcases hlater.entries e hentry with hold | hnew
  · have heq := hwf.eq_of_ino hold (Kernel.mem_entries_of_file hinfo) (hino.trans hyino.symm)
    exact hitem.2.2 (congrArg Prod.fst heq)
  · have hlt := hwf.ino_lt f o ho
    omega

/-- In a cache that is initialised with size zero, purges that find all items locked remove none, whatever goes
wrong. Where no call fails, a purge removes none exactly if it finds all items locked. -/
theorem purges_keep_files {dir : Text} (hnul : '\x00' ∉ dir) {K₀ : Kernel} (hwf : K₀.Wf) {purgeSize : Int}
    {s₀ : Session} (hinit : (CacheOp.run (.initCache dir 0 purgeSize) s₀).Runs (Kernel.Does may i) K₀ t s K)
    (hanswer : s.answer = true) (hhistory : History may i s K ops s' K') :
    ((∀ x ∈ ops, x.op = .purge → AllHeld (resolve dir) x.before) →
      ∀ x ∈ ops, x.op = .purge → x.after.files = x.before.files) ∧
    ((∀ c, may c = false) → ∀ x ∈ ops, x.op = .purge → (∀ e ∈ x.record, succeeded e = true) →
      (x.after.files = x.before.files ↔ AllHeld (resolve dir) x.before)) := by
  obtain ⟨t₁, t₂, ⟨answer, fc⟩, K₁, rfl, hrun, hresult⟩ := Prog.runs_bind.mp hinit
  obtain ⟨rfl, rfl, rfl⟩ := hresult
  obtain rfl : answer = true := hanswer
  obtain ⟨rfl, hmax, f, o, hf, ho, hinfo⟩ := opensInfo_initCache hnul hwf hrun
  have hwf₁ := wf_of_runs hrun hwf
  have hbefore := hhistory.before hwf₁
  -- a purge is one of the object, in a later state
  have hpurge : ∀ x ∈ ops, x.op = .purge → ∃ b, fc.purge.Runs (Kernel.Does may i) x.before x.record b x.after := by
    intro x hx hop
    obtain ⟨-, -, s₁, s₂, hcache, hrun⟩ := hbefore x hx
    rw [hop] at hrun
    obtain ⟨t₃, t₄, b, K₂, hrecord, hrun, hret⟩ := Prog.runs_bind.mp hrun
    obtain ⟨rfl, -, rfl⟩ := hret
    rw [List.append_nil] at hrecord
    rw [hcache, ← hrecord] at hrun
    exact ⟨b, hrun⟩
  have hkeeps : ∀ x ∈ ops, x.op = .purge → AllHeld (resolve fc.cacheDir) x.before →
      x.after.files = x.before.files := by
    intro x hx hop hheld
    obtain ⟨b, hrun⟩ := hpurge x hx hop
    exact runs_purge_held hnul (hbefore x hx).1 hheld hrun
  refine ⟨fun hall x hx hop => hkeeps x hx hop (hall x hx hop), ?_⟩
  intro hmay x hx hop hok
  refine ⟨fun hsame => ?_, hkeeps x hx hop⟩
  obtain rfl : may = fun _ => false := funext hmay
  obtain ⟨hwf', hlater, -⟩ := hbefore x hx
  obtain ⟨b, hrun⟩ := hpurge x hx hop
  exact held_of_purge hnul hmax hf hwf' (fun o' ho' => info_ne_item hwf₁ hlater ho hinfo ho') hrun hok hsame

end History

/-- A process puts an item, holds its lock, and purges the cache. -/
theorem purges_keep_files_put : ∃ t s K ops s' K' x,
    (CacheOp.run (.initCache ['/', 'c'] 0 0) .new).Runs (Kernel.Works 0) Usage.oneFolder t s K ∧
    History (fun _ => false) 0 s K ops s' K' ∧ x ∈ ops ∧ x.op = .purge ∧ x.before.files.length = 2 ∧
    x.after.files = x.before.files := by
  have hplay : (Prog.play (Kernel.attempt (fun _ => false) 0) (List.replicate 3 none)
      (CacheOp.run (.initCache ['/', 'c'] 0 0) .new) Usage.oneFolder).any (fun out => out.2.1.answer &&
        (Prog.play (Kernel.attempt (fun _ => false) 0) (List.replicate 5 none)
          (CacheOp.run (.putItem ['a']) out.2.1) out.2.2).any fun out₁ =>
            decide (AllHeld [['c']] out₁.2.2 ∧ out₁.2.2.files.length = 2) &&
            (Prog.play (Kernel.attempt (fun _ => false) 0) (List.replicate 12 none)
              (CacheOp.run .purge out₁.2.1) out₁.2.2).any fun _ => true) = true := by decide
  obtain ⟨t, s, K, hinit, hq⟩ := Prog.exists_runs hplay
  rw [Bool.and_eq_true] at hq
  obtain ⟨hanswer, hq⟩ := hq
  obtain ⟨t₁, s₁, K₁, hput, hq⟩ := Prog.exists_runs hq
  rw [Bool.and_eq_true, decide_eq_true_eq] at hq
  obtain ⟨⟨hheld, hlength⟩, hq⟩ := hq
  obtain ⟨t₂, s₂, K₂, hpurge, -⟩ := Prog.exists_runs hq
  have hhistory : History (fun _ => false) 0 s K [⟨K, .putItem ['a'], t₁, K₁⟩, ⟨K₁, .purge, t₂, K₂⟩] s₂ K₂ :=
    .operation (.inl trivial) hput (.operation (.inr rfl) hpurge (.nil s₂ K₂))
  have hall : ∀ x ∈ [(⟨K, .putItem ['a'], t₁, K₁⟩ : Operation), ⟨K₁, .purge, t₂, K₂⟩], x.op = .purge →
      AllHeld (resolve ['/', 'c']) x.before := by
    intro x hx hop
    rcases List.mem_pair.mp hx with rfl | rfl
    · cases hop
    · exact hheld
  have hmem : (⟨K₁, .purge, t₂, K₂⟩ : Operation) ∈
      [(⟨K, .putItem ['a'], t₁, K₁⟩ : Operation), ⟨K₁, .purge, t₂, K₂⟩] := List.mem_cons_of_mem _ List.mem_cons_self
  exact ⟨t, s, K, _, s₂, K₂, _, hinit, hhistory, hmem, rfl, hlength,
    (purges_keep_files (by decide) Usage.wf_oneFolder hinit hanswer hhistory).1 hall _ hmem rfl⟩

/-- In a new cache of size zero a process puts one byte, and its purge removes it. -/
theorem purge_of_unlimited_removes :
    ¬ ∀ (may : SysCall → Bool) (i : Nat) (dir : Text) (purgeSize : Int) (K₀ : Kernel) (t : Record) (s : Session)
      (K : Kernel) (ops : List Operation) (s' : Session) (K' : Kernel), '\x00' ∉ dir → K₀.Wf →
      (CacheOp.run (.initCache dir 0 purgeSize) .new).Runs (Kernel.Does may i) K₀ t s K → s.answer = true →
      History may i s K ops s' K' → ∀ x ∈ ops, x.op = .purge → x.after.files = x.before.files := by
  intro h
  have hplay : (Prog.play (Kernel.attempt (fun _ => false) 0) (List.replicate 3 none)
      (CacheOp.run (.initCache ['/', 'c'] 0 0) .new) Usage.oneFolder).any (fun out => out.2.1.answer &&
        (Prog.play (Kernel.attempt (fun _ => false) 0) (List.replicate 12 none)
          (CacheOp.run (.putData ['a'] [1]) out.2.1) out.2.2).any fun out₁ =>
            (Prog.play (Kernel.attempt (fun _ => false) 0) (List.replicate 14 none)
              (CacheOp.run .purge out₁.2.1) out₁.2.2).any fun out₂ =>
                decide (out₂.2.2.files ≠ out₁.2.2.files)) = true := by decide
  obtain ⟨t, s, K, hinit, hq⟩ := Prog.exists_runs hplay
  rw [Bool.and_eq_true] at hq
  obtain ⟨hanswer, hq⟩ := hq
  obtain ⟨t₁, s₁, K₁, hput, hq⟩ := Prog.exists_runs hq
  obtain ⟨t₂, s₂, K₂, hpurge, hq⟩ := Prog.exists_runs hq
  have hhistory : History (fun _ => false) 0 s K [⟨K, .putData ['a'] [1], t₁, K₁⟩, ⟨K₁, .purge, t₂, K₂⟩] s₂ K₂ :=
    .operation (.inl trivial) hput (.operation (.inr rfl) hpurge (.nil s₂ K₂))
  exact of_decide_eq_true hq (h _ 0 ['/', 'c'] 0 Usage.oneFolder t s K _ s₂ K₂ (by decide) Usage.wf_oneFolder hinit
    hanswer hhistory ⟨K₁, .purge, t₂, K₂⟩ (List.mem_cons_of_mem _ List.mem_cons_self) rfl)

end Skunk.BesUtils
