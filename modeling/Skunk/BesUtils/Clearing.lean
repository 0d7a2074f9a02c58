import Skunk.BesUtils.Eviction

/-!
# What clear leaves

`clear` removes all items, but not the size that `cache_info` has for them. If that was not zero before, it is not
zero after, and whatever is put later is counted on top of it.
-/

namespace Skunk.BesUtils

open Effect Posix

/-! ## The files -/

section Removed

variable {fc : FileCache} {K K' : Kernel} {i : Nat} {t : Record}

/-- To remove a file is to evict it. -/
theorem evicted_dropFile {e : List Text × Nat} (hwf : K.Wf) (he : e ∈ K.files) :
    Evicted K (K.dropFile e.1) [e] where
  wf := hwf.dropFile e.1
  files := filter_location hwf he
  folders := rfl
  data := rfl
  atime := fun _ _ => rfl
  opened := rfl
  nextFd := Nat.le_refl _

/-- If all files could be removed, they were files, and they are gone. -/
theorem runs_removeFiles (hnul : '\x00' ∉ fc.cacheDir) {l : List (List Text × Nat)} (hwf : K.Wf)
    (hreach : InReach fc K) (hl : ∀ e ∈ l, e ∈ itemsIn (resolve fc.cacheDir) K) (hnodup : l.Nodup)
    (hrun : (FileCache.removeFiles (l.map (pathOf fc))).Runs (Kernel.Works i) K t true K') :
    Evicted K K' l ∧ ∀ e ∈ l, e ∈ K.files := by
  induction l generalizing K t with
  | nil =>
      obtain ⟨-, -, rfl⟩ := hrun
      exact ⟨.refl hwf, List.forall_mem_nil _⟩
  | cons e l ih =>
      obtain ⟨he, hl⟩ := List.forall_mem_cons.mp hl
      obtain ⟨hfresh, hnodup⟩ := List.nodup_cons.mp hnodup
      obtain ⟨removed, K₁, t₁, hremove, rfl, hrest⟩ := runs_call_bind.mp hrun
      cases removed with
      | false =>
          obtain ⟨-, hfalse, -⟩ := hrest
          cases hfalse
      | true =>
          obtain ⟨hfalse, -⟩ | ⟨loc, n, hloc, hlookup, -, rfl⟩ := Kernel.exec_remove (Kernel.works_iff.mp hremove)
          · cases hfalse
          obtain rfl := Option.some.inj (hloc.symm.trans (locate_pathOf hnul hwf hreach he))
          have hfile : e ∈ K.files := by
            have hmem := hwf.lookup_files.mp hlookup
            have hn := hwf.lookup_entries.mpr (Kernel.mem_entries_of_file hmem)
            rw [hwf.lookup_entries.mpr (mem_itemsIn.mp he).1] at hn
            rw [← Option.some.inj hn] at hmem
            exact hmem
          have hev := evicted_dropFile hwf hfile
          have hkept := hev.rest hfresh (fun x hx => List.mem_singleton.mp hx) hl
          obtain ⟨hev', hfiles⟩ := ih hev.wf (hreach.mono rfl) hkept hnodup hrest
          refine ⟨hev.trans hev', List.forall_mem_cons.mpr ⟨hfile, fun x hx => ?_⟩⟩
          exact List.mem_of_mem_filter (hfiles x hx)

/-- Nothing is in the directory but `cache_info`, and nobody has locked that. -/
structure Emptied (home : List Text) (ino : Nat) (K : Kernel) : Prop where
  wf : K.Wf
  items : itemsIn home K = []
  info : (home ++ [cacheInfoName], ino) ∈ K.files
  unlocked : ∀ fd o, K.opened fd = some o → o.ino = ino → o.lock = none

/-- Where all items have been removed there are none. -/
theorem Evicted.itemsIn_eq_nil {home : List Text} (h : Evicted K K' (itemsIn home K)) (hwf : K.Wf)
    (hfiles : ∀ e ∈ itemsIn home K, e ∈ K.files) : itemsIn home K' = [] := by
  rw [List.eq_nil_iff_forall_not_mem]
  intro e he
  obtain ⟨hentry, hitem⟩ := mem_itemsIn.mp he
  rw [Kernel.entries, h.files, h.folders] at hentry
  rcases List.mem_append.mp hentry with hfile | hfolder
  · rw [List.mem_filter, decide_eq_true_eq] at hfile
    exact hfile.2 (mem_itemsIn.mpr ⟨Kernel.mem_entries_of_file hfile.1, hitem⟩)
  · -- a folder could not have been removed
    have hfile := hfiles e (mem_itemsIn.mpr ⟨Kernel.mem_entries_of_folder hfolder, hitem⟩)
    have hnodup := hwf.locations
    rw [Kernel.entries, List.map_append, List.nodup_append] at hnodup
    exact hnodup.2.2 _ (List.mem_map_of_mem hfile) _ (List.mem_map_of_mem hfolder) rfl

/-- If `clear` returns true, the directory is empty, and the recorded size is what it was. -/
theorem runs_clear {f : Nat} {o : OpenFile} (h : Attached fc f o K)
    (hrun : fc.clear.Runs (Kernel.Works i) K t true K') :
    Emptied (resolve fc.cacheDir) o.ino K' ∧
      recordedSize (resolve fc.cacheDir) K' = recordedSize (resolve fc.cacheDir) K := by
  rw [FileCache.clear, h.fd] at hrun
  rcases runs_withCacheLock hrun with ⟨hnone, -⟩ | ⟨f', locked, K₁, t', K₂, r, hf, hlock, -, hunlock, hbody⟩
  · cases hnone
  obtain rfl := Option.some.inj hf
  obtain ⟨rfl, hbody⟩ | ⟨-, -, hfalse, -⟩ := hbody
  swap
  · cases hfalse
  have hwf₁ := h.wf.does hlock
  have hwf' := (wf_of_runs hbody hwf₁).does hunlock
  obtain ⟨-, hgrants, rfl⟩ | ⟨hfalse, -⟩ := Kernel.does_flock h.opened hlock
  swap
  · cases hfalse
  obtain ⟨t₁, t₂, files, K₃, rfl, hfiles, hrest⟩ := Prog.runs_bind.mp hbody
  obtain ⟨rfl, ⟨rfl, -⟩ | ⟨hreach, rfl⟩⟩ := runs_filesInCache h.noNul hwf₁ hfiles
  · obtain ⟨-, hfalse, -⟩ := hrest
    cases hfalse
  have hnodup : (itemsIn (resolve fc.cacheDir) K).Nodup := h.wf.locations.of_map.filter _
  obtain ⟨hev, hremoved⟩ := runs_removeFiles h.noNul hwf₁ hreach (fun _ he => he) hnodup hrest
  -- the descriptor is still the one that the lock was taken with
  have hopened : K₂.opened f = some { o with lock := some .exclusive } := by
    rw [hev.opened]
    exact Kernel.setOpen_opened_self
  have hexec := (Kernel.exec_unlock hopened).symm.trans (Kernel.works_iff.mp hunlock)
  obtain ⟨-, rfl⟩ := Prod.mk.inj (Option.some.inj hexec)
  have hinfo : (resolve fc.cacheDir ++ [cacheInfoName], o.ino) ∈ K₂.files := by
    rw [hev.files]
    exact List.mem_filter.mpr ⟨h.info, decide_eq_true (info_not_gone (fun _ he => he) o.ino)⟩
  refine ⟨⟨hwf', hev.itemsIn_eq_nil hwf₁ hremoved, hinfo, ?_⟩, ?_⟩
  · intro fd x hx hino
    by_cases hfd : fd = f
    · subst hfd
      rw [Kernel.setOpen_opened_self] at hx
      obtain rfl := Option.some.inj hx
      rfl
    · rw [Kernel.setOpen_opened_of_ne hfd, hev.opened, Kernel.setOpen_opened_of_ne hfd] at hx
      rcases (Kernel.grants_iff h.wf).mp hgrants fd x hx hfd hino with hnone | ⟨-, hmode⟩
      · exact hnone
      · cases hmode
  · rw [recordedSize_eq (hwf'.lookup_files.mpr hinfo), h.recorded]
    exact congrArg (fun data => sizeIn (data o.ino)) hev.data

end Removed

/-! ## Later runs -/

/-- The operations of the later runs. -/
def LaterUse : CacheOp → Prop
  | .putData key _ | .del key => IsKey key
  | .purge => True
  | _ => False

instance : DecidablePred LaterUse
  | .putData key _ | .del key => inferInstanceAs (Decidable (IsKey key))
  | .purge => isTrue trivial
  | .initCache _ _ _ | .put _ _ | .putItem _ | .writePutItem _ _ | .seekPutItem _ _ | .destroyPutItem _
  | .destroyEmptyPutItem | .get _ | .closeItem _ | .clear => isFalse id

/-- In every later run of `put_data`, `del` and `purge` the recorded size is that of all items, and a `purge`
removes nothing while the items are less than the maximum. -/
def StaysRight (dir : Text) (K : Kernel) : Prop :=
  ∀ a b : Config sysCalls Kernel Session, a.world = K → Usage.Sharing dir a →
    ((Usage.clients LaterUse).restrict Usage.WritesSucceed).Reaches a b →
    (System.Quiescent b → recordedSize (resolve dir) b.world = itemBytes (resolve dir) b.world) ∧
    ∀ i s t r K', b.tasks i = .idle s → s.cache.purge.Runs (Kernel.Works i) b.world t r K' →
      itemBytes (resolve dir) b.world < s.cache.maxCacheSizeInBytes → Unchanged b.world K'

section Later

variable {fc : FileCache} {K K' : Kernel} {i f : Nat} {o : OpenFile} {t : Record}

/-- Below the maximum, `purge` changes nothing. -/
theorem runs_purge_below (ho : K.opened f = some o) (hinfo : fc.cacheInfoFd = some f)
    (hlt : sizeIn (K.data o.ino) < fc.maxCacheSizeInBytes) {b : Bool}
    (hrun : fc.purge.Runs (Kernel.Works i) K t b K') : Unchanged K K' := by
  rw [purge_eq, hinfo] at hrun
  rcases runs_withCacheLock hrun with ⟨hnone, -⟩ | ⟨f', locked, K₁, t', K₂, r, hf, hlock, -, hunlock, hbody⟩
  · cases hnone
  obtain rfl := Option.some.inj hf
  have h₁ := Kernel.unchanged_of_does rfl hlock
  have h₂ := Kernel.unchanged_of_does rfl hunlock
  rcases hbody with ⟨rfl, hbody⟩ | ⟨-, -, -, rfl⟩
  swap
  · exact h₁.trans h₂
  obtain ⟨-, -, rfl⟩ | ⟨hfalse, -⟩ := Kernel.does_flock ho hlock
  swap
  · cases hfalse
  obtain ⟨t₁, t₂, recorded, K₃, rfl, hget, hrest⟩ := Prog.runs_bind.mp hbody
  obtain ⟨rfl, pos, rfl⟩ := runs_recorded Kernel.setOpen_opened_self hget
  have hbelow : sizeIn ((K.setOpen f (some { o with lock := some .exclusive })).data o.ino) <
      fc.maxCacheSizeInBytes := hlt
  rw [if_pos hbelow] at hrest
  obtain ⟨-, -, rfl⟩ := hrest
  exact (h₁.trans (Kernel.unchanged_setOpen f _)).trans h₂

/-- What `clear` leaves is where the sizes are right, if the recorded size is zero. -/
theorem Emptied.starts {dir : Text} {ino : Nat} {a : Config sysCalls Kernel Session} (hnul : '\x00' ∉ dir)
    (h : Emptied (resolve dir) ino a.world) (hzero : recordedSize (resolve dir) a.world = 0)
    (hsharing : Usage.Sharing dir a) : Usage.Starts ⟨dir, none, true, true, false, hnul⟩ a := by
  refine Usage.starts_of_empty hnul h.wf h.info ?_ hzero ?_ hsharing
  · intro n ino' hentry
    by_contra hn
    have hitem := mem_itemsIn.mpr ⟨hentry, isItem_iff.mpr ⟨n, rfl, hn⟩⟩
    rw [h.items] at hitem
    exact List.not_mem_nil hitem
  · exact fun fd o ho hinfo => h.unlocked fd o ho (h.wf.ino_eq hinfo h.info)

/-- Whoever gets the lock of the cache finds nobody in the section. -/
theorem holder_of_grants {u : Usage} {g : Ghost} (hinv : u.Inv (K, g)) (hshared : u.shared = none)
    (ho : K.opened f = some o) (hinfo : u.IsInfo K o.ino) (hopener : o.opener = i)
    (hout : ∀ f', g.holder ≠ some (i, f')) (hgrants : K.grants f o.ino .exclusive = true) : g.holder = none := by
  rw [Option.eq_none_iff_forall_ne_some]
  rintro ⟨j, f'⟩ hholder
  obtain ⟨x, hx, hxinfo, hlock, hxopener⟩ := hinv.holds j f' hholder
  have hxopener : x.opener = j := by
    rcases hxopener with hf' | ⟨-, hxopener⟩
    · rw [hshared] at hf'
      cases hf'
    · exact hxopener
  have hx : K.opened f' = some x := hx
  have hne : f' ≠ f := by
    rintro rfl
    obtain rfl := Option.some.inj (hx.symm.trans ho)
    exact hout f' (by rw [hholder, ← hxopener, hopener])
  rcases (Kernel.grants_iff hinv.wf).mp hgrants f' x hx hne (hinv.wf.ino_eq hxinfo hinfo) with hnone | ⟨-, hmode⟩
  · rw [hlock] at hnone
    cases hnone
  · cases hmode

/-- From an empty directory with recorded size zero, the recorded size stays right. -/
theorem Emptied.staysRight {dir : Text} {ino : Nat} (hnul : '\x00' ∉ dir) (h : Emptied (resolve dir) ino K)
    (hzero : recordedSize (resolve dir) K = 0) : StaysRight dir K := by
  rintro a b rfl hsharing hreach
  let u : Usage := ⟨dir, none, true, true, false, hnul⟩
  have hallowed : ∀ op, LaterUse op → Usage.Allowed u op := by
    intro op hop
    cases op with
    | putData | del => exact fun _ => hop
    | purge => exact fun _ => rfl
    | initCache | put | putItem | writePutItem | seekPutItem | destroyPutItem | destroyEmptyPutItem | get
    | closeItem | clear => exact hop.elim
  have htidy : ∀ i c K r, Usage.WritesSucceed i c K r → u.Tidy i c K r := fun _ _ _ _ =>
    Usage.tidy_of_writesSucceed rfl rfl
  obtain ⟨g, hg⟩ := Usage.coupled_of_reaches hallowed htidy (h.starts hnul hzero hsharing) hreach
  refine ⟨fun hquiet => Usage.recorded_of_quiescent hg hquiet rfl rfl, ?_⟩
  intro i s t r K' htask hrun hlt
  have hready := (hg.idle_of htask).ready
  cases hfd : s.cache.cacheInfoFd with
  | none =>
      rw [purge_eq, hfd] at hrun
      obtain ⟨-, -, rfl⟩ := hrun
      exact .refl _
  | some f =>
      obtain ⟨o, ho, hinfo, hopener⟩ := hready.info f hfd
      have ho : b.world.opened f = some o := ho
      have hopener : o.opener = i := by
        rcases hopener with hshared | ⟨-, hopener⟩
        · cases hshared
        · exact hopener
      -- it waits for the lock, so if it has run, the lock was granted
      have hgrants : b.world.grants f o.ino .exclusive = true := by
        by_contra hrefused
        have hcalls := hrun
        rw [purge_eq, hfd] at hcalls
        obtain ⟨locked, K₁, t₁, hlock, -⟩ := hcalls
        have hexec := Kernel.works_iff.mp hlock
        rw [Kernel.exec, ho] at hexec
        dsimp only at hexec
        rw [if_neg hrefused, if_neg Bool.false_ne_true] at hexec
        cases hexec
      -- nobody is in the section then, and the recorded size is that of the items
      have hfree := holder_of_grants hg.inv rfl ho hinfo hopener hready.out hgrants
      have hright : recordedSize u.home b.world = itemBytes u.home b.world :=
        Usage.recorded_of_free (s := (b.world, g)) hg.inv rfl rfl hfree
      have hsize : recordedSize u.home b.world = sizeIn (b.world.data o.ino) := by
        have hwf : b.world.Wf := hg.inv.wf
        exact recordedSize_eq (hwf.lookup_files.mpr hinfo)
      refine runs_purge_below ho hfd ?_ hrun
      rw [← hsize, hright]
      exact hlt

/-- What `clear` should leave: no items, recorded size zero, and sizes that stay right. -/
structure Cleared (dir : Text) (K : Kernel) : Prop where
  items : itemsIn (resolve dir) K = []
  recorded : recordedSize (resolve dir) K = 0
  staysRight : StaysRight dir K

/-- When `clear` returns true, it leaves what it should exactly if the recorded size was zero before. -/
theorem clear_cleared_iff (h : Attached fc f o K) (hrun : fc.clear.Runs (Kernel.Works i) K t true K') :
    Cleared fc.cacheDir K' ↔ recordedSize (resolve fc.cacheDir) K = 0 := by
  obtain ⟨hemptied, hrecorded⟩ := runs_clear h hrun
  constructor
  · intro hcleared
    rw [← hrecorded]
    exact hcleared.recorded
  · intro hzero
    rw [← hrecorded] at hzero
    exact ⟨hemptied.items, hzero, hemptied.staysRight h.noNul hzero⟩

end Later

/-- Two items that nobody has counted. -/
theorem clear_cleared_iff_uncounted : ∃ t K',
    (overTwoItems 5).clear.Runs (Kernel.Works 0) ((twoItems 0).addOpen 0 2) t true K' ∧
      Cleared (overTwoItems 5).cacheDir K' := by
  have hplay : (Prog.play (Kernel.attempt (fun _ => false) 0) (List.replicate 5 none) (overTwoItems 5).clear
      ((twoItems 0).addOpen 0 2)).any (fun out => out.2.1) = true := by decide
  obtain ⟨t, b, K', hrun, hb⟩ := Prog.exists_runs hplay
  obtain rfl : b = true := hb
  exact ⟨t, K', hrun, (clear_cleared_iff (attached_overTwoItems 0 5) hrun).mpr (by decide)⟩

/-- A process initialises a cache of one byte, puts one byte and clears the cache. The byte is still recorded, and
when an empty item has been put, `purge` removes it. -/
theorem clear_leaves_recorded : ∃ t₀ s K₀ t₁ s₁ K₁ t₂ s₂ K₂ t₃ s₃ K₃ t₄ s₄ K₄,
    (CacheOp.run (.initCache ['/', 'c'] 1 1) .new).Runs (Kernel.Works 0) Usage.oneFolder t₀ s K₀ ∧
    (CacheOp.run (.putData ['a'] [7]) s).Runs (Kernel.Works 0) K₀ t₁ s₁ K₁ ∧
    (CacheOp.run .clear s₁).Runs (Kernel.Works 0) K₁ t₂ s₂ K₂ ∧ s₂.answer = true ∧
    itemsIn [['c']] K₂ = [] ∧ recordedSize [['c']] K₂ = 1 ∧
    (CacheOp.run (.putData ['b'] []) s₂).Runs (Kernel.Works 0) K₂ t₃ s₃ K₃ ∧
    recordedSize [['c']] K₃ = 1 ∧ itemBytes [['c']] K₃ = 0 ∧ (itemsIn [['c']] K₃).length = 1 ∧
    (CacheOp.run .purge s₃).Runs (Kernel.Works 0) K₃ t₄ s₄ K₄ ∧ itemsIn [['c']] K₄ = [] := by
  have hplay : (Prog.play (Kernel.attempt (fun _ => false) 0) (List.replicate 3 none)
      (CacheOp.run (.initCache ['/', 'c'] 1 1) .new) Usage.oneFolder).any (fun out =>
        (Prog.play (Kernel.attempt (fun _ => false) 0) (List.replicate 12 none)
          (CacheOp.run (.putData ['a'] [7]) out.2.1) out.2.2).any fun out₁ =>
            (Prog.play (Kernel.attempt (fun _ => false) 0) (List.replicate 4 none)
              (CacheOp.run .clear out₁.2.1) out₁.2.2).any fun out₂ =>
                decide (out₂.2.1.answer = true ∧ itemsIn [['c']] out₂.2.2 = [] ∧
                  recordedSize [['c']] out₂.2.2 = 1) &&
                (Prog.play (Kernel.attempt (fun _ => false) 0) (List.replicate 12 none)
                  (CacheOp.run (.putData ['b'] []) out₂.2.1) out₂.2.2).any fun out₃ =>
                    decide (recordedSize [['c']] out₃.2.2 = 1 ∧ itemBytes [['c']] out₃.2.2 = 0 ∧
                      (itemsIn [['c']] out₃.2.2).length = 1) &&
                    (Prog.play (Kernel.attempt (fun _ => false) 0) (List.replicate 14 none)
                      (CacheOp.run .purge out₃.2.1) out₃.2.2).any fun out₄ =>
                        decide (itemsIn [['c']] out₄.2.2 = [])) = true := by decide
  obtain ⟨t₀, s, K₀, hinit, hq⟩ := Prog.exists_runs hplay
  obtain ⟨t₁, s₁, K₁, hput, hq⟩ := Prog.exists_runs hq
  obtain ⟨t₂, s₂, K₂, hclear, hq⟩ := Prog.exists_runs hq
  rw [Bool.and_eq_true, decide_eq_true_eq] at hq
  obtain ⟨⟨hanswer, hitems, hrecorded⟩, hq⟩ := hq
  obtain ⟨t₃, s₃, K₃, hput', hq⟩ := Prog.exists_runs hq
  rw [Bool.and_eq_true, decide_eq_true_eq] at hq
  obtain ⟨⟨hrecorded', hbytes, hlength⟩, hq⟩ := hq
  obtain ⟨t₄, s₄, K₄, hpurge, hq⟩ := Prog.exists_runs hq
  exact ⟨t₀, s, K₀, t₁, s₁, K₁, t₂, s₂, K₂, t₃, s₃, K₃, t₄, s₄, K₄, hinit, hput, hclear, hanswer, hitems, hrecorded,
    hput', hrecorded', hbytes, hlength, hpurge, of_decide_eq_true hq⟩

end Skunk.BesUtils
