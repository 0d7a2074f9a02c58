import Mathlib.Data.List.Perm.Basic
import Skunk.BesUtils.CacheRemove

/-!
# Emptying the cache

`clear` and `purge` list the directory while they hold the lock of the cache. `purge` measures the files
first and asks for their locks afterwards; the sizes are right when it counts them, since a file whose
lock it gets was not pending when it was measured.
-/

namespace Skunk.BesUtils

open Effect Posix

namespace Usage

variable {u : Usage} {may : CacheOp → Prop} {i f fd : Nat} {o : OpenFile} {s s' : View}
  {fc : FileCache}

/-! ## The files of the cache -/

/-- The cache directory can be reached. -/
def Reachable (u : Usage) (s : View) : Prop := s.1.locate u.dir = some u.home ∧ s.1.isFolder u.home

theorem Reachable.mono (h : Reachable u s) (hfolders : ∀ e ∈ s.1.folders, e ∈ s'.1.folders) :
    Reachable u s' :=
  ⟨Kernel.locate_mono (fun _ hloc => Kernel.isFolder_mono hfolders hloc) h.1,
    Kernel.isFolder_mono hfolders h.2⟩

/-- What `files_in_cache` lists. -/
structure Listed (u : Usage) (names : List Text) (s : View) : Prop where
  reach : Reachable u s
  nodup : names.Nodup
  name : ∀ n ∈ names, IsFileName n ∧ n ≠ cacheInfoName
  file : u.accounts = true → u.prepared = true → ∀ n ∈ names, ∃ ino, (u.home ++ [n], ino) ∈ s.1.files

theorem Listed.steady {names : List Text} (h : Listed u names s) (hs : u.Steady s s') :
    Listed u names s' where
  reach := h.reach.mono hs.folders
  nodup := h.nodup
  name := h.name
  file := by
    intro hacc hprep n hn
    obtain ⟨ino, hmem⟩ := h.file hacc hprep n hn
    exact ⟨ino, hs.files.mem_iff.mpr hmem⟩

/-- What is listed in the section is in the directory. -/
theorem filesInCache_keeps (hin : s.2.holder = some (i, f)) (hdir : fc.cacheDir = u.dir)
    (hinv : u.Inv s) :
    Keeps u may i fc.filesInCache (fun r s' => Kept u i f s s' ∧
      ∀ files, r = some files → ∃ names, files = names.map fc.keyFileName ∧
        Listed u names s') s := by
  refine (look_keeps (u := u) (c := .readdir fc.cacheDir) hin
    (fun K => (K.locate fc.cacheDir).bind fun loc =>
      if K.isFolder loc then some (['.'] :: ['.', '.'] :: K.listing loc) else none)
    (fun _ => rfl) (fun _ _ => trivial) (fun _ _ => rfl)).andThen hinv ?_
  rintro r s1 - ⟨s2, hinv2, hk2, hr, hk1⟩
  apply keeps_pure
  intro s3 hrely _
  have hk3 : Kept u i f s2 s3 := hk1.trans (.of_rely hk1.holder hrely)
  refine ⟨hk2.trans hk3, fun files hfiles => ?_⟩
  obtain ⟨all, hall, rfl⟩ := Option.map_eq_some_iff.mp hfiles
  rw [hr] at hall
  obtain ⟨loc, hloc, hlist⟩ := Option.bind_eq_some_iff.mp hall
  -- the directory that is listed is the one of the cache
  have hhome : loc = u.home := by
    rw [Kernel.locate_eq hloc, hdir, cStr_of_notMem u.noNul]
    rfl
  subst hhome
  split at hlist
  next hfolder =>
    obtain rfl := Option.some.inj hlist
    have hskip : (['.'] :: ['.', '.'] :: s2.1.listing u.home).filter
        (fun n => decide (n ≠ ['.'] ∧ n ≠ ['.', '.'] ∧ n ≠ cacheInfoName)) =
        (s2.1.listing u.home).filter
        (fun n => decide (n ≠ ['.'] ∧ n ≠ ['.', '.'] ∧ n ≠ cacheInfoName)) := by
      rw [List.filter_cons_of_neg (by decide), List.filter_cons_of_neg (by decide)]
    rw [hskip]
    refine ⟨_, rfl, Listed.steady (s := s2) ⟨⟨?_, hfolder⟩, ?_, ?_, ?_⟩ hk3.calm.toSteady⟩
    · rw [← hdir]
      exact hloc
    · exact (hinv2.wf.listing_nodup u.home).filter _
    · intro n hn
      obtain ⟨hmem, hne⟩ := List.mem_filter.mp hn
      obtain ⟨ino, hentry⟩ := Kernel.mem_listing.mp hmem
      exact ⟨hinv2.wf.names _ hentry n (by simp), (of_decide_eq_true hne).2.2⟩
    · intro hacc hprep n hn
      obtain ⟨ino, hentry⟩ := Kernel.mem_listing.mp (List.mem_of_mem_filter hn)
      rcases List.mem_append.mp hentry with hfile | hfolder
      · exact ⟨ino, hfile⟩
      · exact absurd hfolder ((hinv2.books hacc).noFolder hprep n ino)
  · cases hlist

/-! ## `clear` -/

/-- The loop of `clear` stays in the section, whatever is removed. -/
theorem removeFiles_keeps {names : List Text} (hacc : u.accounts = false) (hdir : fc.cacheDir = u.dir)
    (hin : s.2.holder = some (i, f)) (hinv : u.Inv s)
    (hnames : ∀ n ∈ names, IsFileName n ∧ n ≠ cacheInfoName) :
    Keeps u may i (FileCache.removeFiles (names.map fc.keyFileName))
      (fun _ s' => s'.2.holder = some (i, f) ∧ Frame u i f none s s') s := by
  induction names generalizing s with
  | nil =>
      apply keeps_pure
      intro s1 hrely hinv1
      have hk : Kept u i f s s1 := .of_rely hin hrely
      exact ⟨hk.holder, hk.frame hinv1⟩
  | cons n names ih =>
      obtain ⟨hn, hinfo⟩ := hnames n List.mem_cons_self
      have hne : u.infoLoc ≠ resolve (cStr (fc.keyFileName n)) := by
        rw [resolve_keyFileName hdir hn]
        intro heq
        exact hinfo (List.singleton_inj.mp (List.append_cancel_left heq)).symm
      have hremove : Keeps u may i (call (.remove (fc.keyFileName n))) (fun _ s1 =>
          s1.2.holder = some (i, f) ∧ Frame u i f none s s1) s := by
        refine (remove_keeps hin hne ?_).mono ?_
        · rw [hacc]
          exact nofun
        · rintro r s1 hinv1 ⟨hstay, hgone⟩
          cases r with
          | false => exact ⟨(hstay rfl).holder, (hstay rfl).frame hinv1⟩
          | true => exact ⟨(hgone rfl).holder, (hgone rfl).frame hinv1 none⟩
      refine hremove.andThen hinv ?_
      rintro removed s1 hinv1 ⟨hin1, hframe1⟩
      split
      · refine (ih hin1 hinv1 fun m hm => hnames m (List.mem_cons_of_mem n hm)).mono ?_
        exact fun _ s2 _ hpost => ⟨hpost.1, hframe1.trans hpost.2⟩
      · apply keeps_pure
        intro s2 hrely hinv2
        have hk : Kept u i f s1 s2 := .of_rely hin1 hrely
        exact ⟨hk.holder, hframe1.trans (hk.frame hinv2)⟩

theorem clear_keeps (h : Ready u i fc s) (hacc : u.accounts = false) :
    Keeps u may i fc.clear (fun _ s' => Leaves u i fc.cacheInfoFd none s s') s := by
  refine locked_keeps h fun f s1 hdir hinv1 hsec => ?_
  refine (filesInCache_keeps hsec.holder hdir hinv1).andThen hinv1 ?_
  rintro files s2 hinv2 ⟨hk, hfiles⟩
  cases files with
  | none =>
      apply keeps_pure
      intro s3 hrely hinv3
      have hk3 := hk.trans (.of_rely hk.holder hrely)
      exact ⟨hsec.kept hk3, hk3.frame hinv3⟩
  | some files =>
      obtain ⟨names, rfl, hlisted⟩ := hfiles files rfl
      refine (removeFiles_keeps hacc hdir hk.holder hinv2 hlisted.name).mono ?_
      exact fun _ s3 _ hpost => ⟨.unaccounted hpost.1 hacc, (hk.frame hinv2).trans hpost.2⟩

/-! ## `purge` -/

/-- A file that has been measured: unless it is pending, the size is right. -/
def Measured (u : Usage) (fc : FileCache) (item : FileCache.ItemInfo) (s : View) : Prop :=
  ∃ n ino, item.name = fc.keyFileName n ∧ IsFileName n ∧ n ≠ cacheInfoName ∧
    (u.home ++ [n], ino) ∈ s.1.files ∧
    ((∀ c ∈ s.2.pending, c.ino ≠ ino) → item.size = (s.1.data ino).length)

theorem Measured.steady {item : FileCache.ItemInfo} (hacc : u.accounts = true)
    (h : Measured u fc item s) (hs : u.Steady s s') : Measured u fc item s' := by
  obtain ⟨n, ino, hname, hn, hinfo, hfile, hsize⟩ := h
  refine ⟨n, ino, hname, hn, hinfo, hs.files.mem_iff.mpr hfile, fun hfree => ?_⟩
  rw [hs.pending] at hfree
  rw [hs.data hacc _ hfile (isItem_name hinfo) hfree]
  exact hsize hfree

theorem insertItem_perm (item : FileCache.ItemInfo) (items : List FileCache.ItemInfo) :
    (FileCache.insertItem item items).Perm (item :: items) := by
  induction items with
  | nil => exact List.Perm.refl _
  | cons x xs ih =>
      rw [FileCache.insertItem]
      split
      · exact (ih.cons x).trans (List.Perm.swap item x xs)
      · exact List.Perm.refl _

/-- What has been measured so far, and what is left to measure. -/
structure Measuring (u : Usage) (fc : FileCache) (items : List FileCache.ItemInfo) (names : List Text)
    (s : View) : Prop where
  items_ : ∀ x ∈ items, Measured u fc x s
  names_ : ∀ n ∈ names, IsFileName n ∧ n ≠ cacheInfoName ∧ ∃ ino, (u.home ++ [n], ino) ∈ s.1.files
  distinct : (items.map FileCache.ItemInfo.name ++ names.map fc.keyFileName).Nodup

theorem Measuring.steady {items : List FileCache.ItemInfo} {names : List Text} (hacc : u.accounts = true)
    (h : Measuring u fc items names s) (hs : u.Steady s s') : Measuring u fc items names s' where
  items_ := fun x hx => (h.items_ x hx).steady hacc hs
  names_ := by
    intro n hn
    obtain ⟨hname, hinfo, ino, hfile⟩ := h.names_ n hn
    exact ⟨hname, hinfo, ino, hs.files.mem_iff.mpr hfile⟩
  distinct := h.distinct

/-- One more file has been measured. -/
theorem Measuring.insert {items : List FileCache.ItemInfo} {names : List Text} {n : Text} {size : Nat}
    {atime : UInt64}
    (h : Measuring u fc items (n :: names) s) (hm : Measured u fc ⟨fc.keyFileName n, size, atime⟩ s) :
    Measuring u fc (FileCache.insertItem ⟨fc.keyFileName n, size, atime⟩ items) names s where
  items_ := by
    intro x hx
    rcases List.mem_cons.mp ((insertItem_perm _ _).mem_iff.mp hx) with rfl | hx
    · exact hm
    · exact h.items_ x hx
  names_ := fun m hm => h.names_ m (List.mem_cons_of_mem n hm)
  distinct := by
    have hperm := ((insertItem_perm ⟨fc.keyFileName n, size, atime⟩ items).map
      FileCache.ItemInfo.name).append_right (names.map fc.keyFileName)
    rw [hperm.nodup_iff, List.map_cons]
    have hdistinct := h.distinct
    rw [List.map_cons] at hdistinct
    exact List.perm_middle.nodup_iff.mp hdistinct

/-- The sizes that are looked up are those of the files. -/
theorem statFiles_keeps {items : List FileCache.ItemInfo} {names : List Text}
    (hin : s.2.holder = some (i, f)) (hdir : fc.cacheDir = u.dir) (hinv : u.Inv s)
    (hm : u.accounts = true → Measuring u fc items names s) :
    Keeps u may i (FileCache.statFiles (names.map fc.keyFileName) items) (fun r s' => Kept u i f s s' ∧
      ∀ items', r = some items' → u.accounts = true → Measuring u fc items' [] s') s := by
  induction names generalizing items s with
  | nil =>
      apply keeps_pure
      intro s1 hrely _
      have hk : Kept u i f s s1 := .of_rely hin hrely
      refine ⟨hk, ?_⟩
      rintro _ ⟨⟩ hacc
      exact (hm hacc).steady hacc hk.calm.toSteady
  | cons n names ih =>
      refine (look_keeps (u := u) (c := .stat (fc.keyFileName n)) hin
        (fun K => (K.inode (fc.keyFileName n)).map fun ino => ((K.data ino).length, K.atime ino))
        (fun _ => rfl) (fun _ _ => trivial) (fun _ _ => rfl)).andThen hinv ?_
      rintro r s1 hinv1 ⟨s2, hinv2, hk2, rfl, hk1⟩
      have hk := hk2.trans hk1
      cases hino : s2.1.inode (fc.keyFileName n) with
      | none =>
          apply keeps_pure
          exact fun s3 hrely _ => ⟨hk.trans (.of_rely hk.holder hrely), nofun⟩
      | some ino =>
          -- the size is the one at this moment, and it can change only while the file is pending
          have hnext : u.accounts = true → Measuring u fc (FileCache.insertItem
              ⟨fc.keyFileName n, (s2.1.data ino).length, (s2.1.atime ino).toUInt64⟩ items) names s1 := by
            intro hacc
            have hm2 := (hm hacc).steady hacc hk2.calm.toSteady
            refine Measuring.steady (s := s2) hacc (hm2.insert ?_) hk1.calm.toSteady
            obtain ⟨hname, hinfo, ino', hfile⟩ := hm2.names_ n List.mem_cons_self
            obtain ⟨loc, hloc, hlook⟩ := Option.bind_eq_some_iff.mp hino
            have hhome := locate_keyFileName hdir hname hloc
            subst hhome
            rw [hinv2.wf.lookup_entries.mpr (Kernel.mem_entries_of_file hfile)] at hlook
            obtain rfl := Option.some.inj hlook
            exact ⟨n, ino', rfl, hname, hinfo, hfile, fun _ => rfl⟩
          refine (ih hk.holder hinv1 hnext).mono ?_
          exact fun r s3 _ hpost => ⟨hk.trans hpost.1, hpost.2⟩

/-- While `purge` removes files: `removed` bytes are gone, and `items` are left to look at. -/
structure Purging (u : Usage) (i f : Nat) (fc : FileCache) (recorded : Nat)
    (items : List FileCache.ItemInfo) (removed : Nat) (s : View) : Prop where
  section_ : InSection u i f 0 removed s
  items_ : u.accounts = true → Measuring u fc items [] s
  recorded_ : u.accounts = true → recorded = u.recorded s
  reach : u.accounts = true → Reachable u s

theorem Purging.steady {recorded removed : Nat} {items : List FileCache.ItemInfo}
    (h : Purging u i f fc recorded items removed s) (hin : s'.2.holder = some (i, f))
    (hs : u.Steady s s') : Purging u i f fc recorded items removed s' where
  section_ := h.section_.steady hin hs
  items_ := fun hacc => (h.items_ hacc).steady hacc hs
  recorded_ := by
    intro hacc
    rw [hs.recorded hacc]
    exact h.recorded_ hacc
  reach := fun hacc => (h.reach hacc).mono hs.folders

/-- An item that stays. -/
theorem Purging.skip {recorded removed : Nat} {item : FileCache.ItemInfo} {rest : List FileCache.ItemInfo}
    (h : Purging u i f fc recorded (item :: rest) removed s) : Purging u i f fc recorded rest removed s where
  section_ := h.section_
  items_ := by
    intro hacc
    have hm := h.items_ hacc
    refine ⟨fun x hx => hm.items_ x (List.mem_cons_of_mem item hx), nofun, ?_⟩
    have hdistinct := hm.distinct
    rw [List.map_cons, List.cons_append] at hdistinct
    exact (List.nodup_cons.mp hdistinct).2
  recorded_ := h.recorded_
  reach := h.reach

/-- An item that is gone. -/
theorem Purging.drop {recorded removed ino : Nat} {item : FileCache.ItemInfo}
    {rest : List FileCache.ItemInfo} (hdir : fc.cacheDir = u.dir) (hinv : u.Inv s)
    (h : Purging u i f fc recorded (item :: rest) removed s)
    (hremovable : Removable u i f ino item.name s)
    (hdropped : Dropped u i f (resolve (cStr item.name)) s s') :
    Purging u i f fc recorded rest ((removed + item.size) % 2 ^ 64) s' := by
  cases hacc : u.accounts with
  | false =>
      refine ⟨.unaccounted hdropped.holder hacc, ?_, ?_, ?_⟩
      all_goals
        rw [hacc]
        exact nofun
  | true =>
      have hm := h.items_ hacc
      obtain ⟨n, ino', hname, hn, hinfo, hfile, hsize⟩ := hm.items_ item List.mem_cons_self
      have hloc : resolve (cStr item.name) = u.home ++ [n] := by
        rw [hname, resolve_keyFileName hdir hn]
      have hplace := hremovable.file
      rw [hloc] at hplace hdropped
      obtain rfl := hinv.wf.ino_eq hplace hfile
      have hsec := hdropped.section_ hacc h.section_ hplace (isItem_name hinfo) hremovable.free
      rw [← hsize hremovable.free] at hsec
      have hrecorded : recorded = u.recorded s' := by
        rw [hdropped.recorded hacc]
        exact h.recorded_ hacc
      -- what is gone and what is left make up the recorded size, which is below `2 ^ 64`
      have hsmall : removed + item.size < 2 ^ 64 := by
        have hbalance := hsec.balance hacc
        have hlt : u.recorded s' < 2 ^ 64 := recordedSize_lt u.home s'.1
        omega
      rw [Nat.mod_eq_of_lt hsmall]
      refine ⟨hsec, fun _ => ⟨?_, nofun, ?_⟩, fun _ => hrecorded, fun _ => ?_⟩
      · intro x hx
        obtain ⟨m, ino, hxname, hm', hxinfo, hxfile, hxsize⟩ := hm.items_ x (List.mem_cons_of_mem item hx)
        -- the other items have other names
        have hne : u.home ++ [m] ≠ u.home ++ [n] := by
          intro heq
          have hdistinct := hm.distinct
          rw [List.map_cons, List.cons_append, List.nodup_cons] at hdistinct
          apply hdistinct.1
          rw [hname, ← List.singleton_inj.mp (List.append_cancel_left heq), ← hxname]
          exact List.mem_append_left _ (List.mem_map_of_mem hx)
        refine ⟨m, ino, hxname, hm', hxinfo, hdropped.file hxfile hne, fun hfree => ?_⟩
        rw [hdropped.pending] at hfree
        rw [hdropped.data hacc hxfile (isItem_name hxinfo) hfree hne]
        exact hxsize hfree
      · have hdistinct := hm.distinct
        rw [List.map_cons, List.cons_append] at hdistinct
        exact (List.nodup_cons.mp hdistinct).2
      · exact (h.reach hacc).mono hdropped.folders

/-- What the loop of `purge` leaves. -/
def Purged (u : Usage) (i f recorded : Nat) (s : View) (r : Option Nat) (s' : View) : Prop :=
  s'.2.holder = some (i, f) ∧ Frame u i f none s s' ∧ (r = none → u.accounts = false) ∧
    ∀ removed, r = some removed →
      InSection u i f 0 removed s' ∧ (u.accounts = true → recorded = u.recorded s')

theorem Purging.stop {recorded removed : Nat} {items : List FileCache.ItemInfo}
    (h : Purging u i f fc recorded items removed s) (hrely : u.Rely i s s') (hinv' : u.Inv s') :
    Purged u i f recorded s (some removed) s' := by
  have hk : Kept u i f s s' := .of_rely h.section_.holder hrely
  refine ⟨hk.holder, hk.frame hinv', nofun, ?_⟩
  rintro _ ⟨⟩
  have hpurging := h.steady hk.holder hk.calm.toSteady
  exact ⟨hpurging.section_, hpurging.recorded_⟩

/-- An item that is there can be opened. -/
theorem Purging.opens {recorded removed : Nat} {item : FileCache.ItemInfo}
    {rest : List FileCache.ItemInfo} (hdir : fc.cacheDir = u.dir) (hinv : u.Inv s)
    (h : Purging u i f fc recorded (item :: rest) removed s) (hacc : u.accounts = true) :
    s.1.fileInode item.name ≠ none := by
  obtain ⟨n, ino, hname, hn, -, hfile, -⟩ := (h.items_ hacc).items_ item List.mem_cons_self
  obtain ⟨hloc, hfolder⟩ := h.reach hacc
  rw [Kernel.fileInode, hname, FileCache.keyFileName, hdir, locate_name u.noNul hn hloc hfolder]
  show s.1.files.lookup (u.home ++ [n]) ≠ none
  rw [hinv.wf.lookup_files.mpr hfile]
  exact Option.some_ne_none _

/-- With each item that is removed, its size goes off the recorded one. -/
theorem removeItems_keeps {purgeSize recorded removed : Nat} {items : List FileCache.ItemInfo}
    (hdir : fc.cacheDir = u.dir) (hinv : u.Inv s)
    (h : Purging u i f fc recorded items removed s) :
    Keeps u may i (FileCache.removeItems purgeSize items removed) (Purged u i f recorded s) s := by
  induction items generalizing s removed with
  | nil => exact keeps_pure fun s1 hrely hinv1 => h.stop hrely hinv1
  | cons item rest ih =>
      rw [FileCache.removeItems]
      split
      · exact keeps_pure fun s1 hrely hinv1 => h.stop hrely hinv1
      · refine (openWrite_keeps h.section_.holder).andThen hinv ?_
        rintro opened s1 hinv1 ⟨hnone, hsome⟩
        cases opened with
        | none =>
            apply keeps_pure
            intro s2 hrely hinv2
            obtain ⟨hk, s3, hinv3, hk3, hfail⟩ := hnone rfl
            have hk2 := hk.trans (.of_rely hk.holder hrely)
            refine ⟨hk2.holder, hk2.frame hinv2, fun _ => ?_, nofun⟩
            rw [← Bool.not_eq_true]
            intro hacc
            exact (h.steady hk3.holder hk3.calm.toSteady).opens hdir hinv3 hacc hfail
        | some fd =>
            obtain ⟨ino, hopened, hfile⟩ := hsome fd rfl
            have hbody : Keeps u may i (withItem fd do
                let locked ← lockTheItem fd .exclusive true
                if locked then
                  let gone ← call (.remove item.name)
                  pure (if gone then (removed + item.size) % 2 ^ 64 else removed)
                else pure removed) (fun a s2 => s2.2.holder = some (i, f) ∧ Frame u i f none s s2 ∧
                  Purging u i f fc recorded rest a s2) s1 := by
              refine withItem_keeps hinv hopened.fresh hinv1
                (fun _ _ _ hin hs hp => hp.steady hin hs) ?_
              -- whatever happens to the lock, the item can be closed
              have hstop : ∀ {o s2}, Opened u i f fd o s s2 → ∀ s3, u.Rely i s2 s3 → u.Inv s3 →
                  Closing u i f fd s s3 ∧ Purging u i f fc recorded rest removed s3 := by
                intro o s2 h2 s3 hrely hinv3
                have h3 := h2.kept (.of_rely h2.holder hrely) hinv3
                exact ⟨h3.closing, h.skip.steady h3.holder h3.steady⟩
              refine (lockOld_keeps hinv1 hopened rfl .exclusive).andThen hinv1 ?_
              intro locked s2 hinv2 htried
              cases locked with
              | false => exact keeps_pure (hstop (htried.1 rfl))
              | true =>
                  obtain ⟨hlocked, hinfo⟩ := htried.2 rfl
                  have hremovable : Removable u i f ino item.name s2 := by
                    refine ⟨hlocked.holder, ?_, hinfo, hlocked.free hinv2 rfl⟩
                    exact hlocked.steady.files.mem_iff.mpr (hopened.steady.files.mem_iff.mp hfile)
                  refine (hremovable.remove_keeps hinv2).andThen hinv2 ?_
                  rintro gone s3 hinv3 ⟨hstay, hgone⟩
                  cases gone with
                  | false => exact keeps_pure (hstop (hlocked.kept (hstay rfl) hinv3))
                  | true =>
                      have hdropped := hgone rfl
                      have hpurging2 := h.steady hlocked.holder hlocked.steady
                      have hpurging3 := hpurging2.drop hdir hinv2 hremovable hdropped
                      have hclosing := hlocked.closing.framed (hdropped.frame hinv3 none) hinv3
                        hdropped.holder
                      apply keeps_pure
                      intro s4 hrely hinv4
                      have hk : Kept u i f s3 s4 := .of_rely hdropped.holder hrely
                      exact ⟨hclosing.kept hk hinv4, hpurging3.steady hk.holder hk.calm.toSteady⟩
            refine hbody.andThen hinv1 ?_
            rintro removed' s2 hinv2 ⟨-, hframe2, hpurging2⟩
            refine (ih hinv2 hpurging2).mono ?_
            exact fun r s3 _ hpost => ⟨hpost.1, hframe2.trans hpost.2.1, hpost.2.2⟩

theorem purge_keeps (h : Ready u i fc s) (hprep : u.accounts = true → u.prepared = true) :
    Keeps u may i fc.purge (fun _ s' => Leaves u i fc.cacheInfoFd none s s') s := by
  refine locked_keeps h fun f s1 hdir hinv1 hsec => ?_
  -- nothing has been done yet
  have hstop : ∀ {s2}, Kept u i f s1 s2 → ∀ s3, u.Rely i s2 s3 → u.Inv s3 → Done u i f s1 s3 := by
    intro s2 hk s3 hrely hinv3
    have hk3 := hk.trans (.of_rely hk.holder hrely)
    exact ⟨hsec.kept hk3, hk3.frame hinv3⟩
  refine (getCacheInfoSize_keeps hsec.holder).andThen hinv1 ?_
  rintro recorded s2 hinv2 ⟨hk2, hrecorded⟩
  split
  · exact keeps_pure (hstop hk2)
  · refine (filesInCache_keeps hk2.holder hdir hinv2).andThen hinv2 ?_
    rintro files s3 hinv3 ⟨hk3, hfiles⟩
    have hk13 := hk2.trans hk3
    cases files with
    | none => exact keeps_pure (hstop hk13)
    | some files =>
        obtain ⟨names, rfl, hlisted⟩ := hfiles files rfl
        have hstart : u.accounts = true → Measuring u fc [] names s3 := by
          intro hacc
          refine ⟨nofun, ?_, ?_⟩
          · intro n hn
            exact ⟨(hlisted.name n hn).1, (hlisted.name n hn).2, hlisted.file hacc (hprep hacc) n hn⟩
          · refine hlisted.nodup.map_on ?_
            intro n hn m hm heq
            have hresolve := resolve_keyFileName hdir (hlisted.name n hn).1
            rw [heq, resolve_keyFileName hdir (hlisted.name m hm).1] at hresolve
            exact (List.singleton_inj.mp (List.append_cancel_left hresolve)).symm
        refine (statFiles_keeps hk13.holder hdir hinv3 hstart).andThen hinv3 ?_
        rintro items s4 hinv4 ⟨hk4, hitems⟩
        have hk14 := hk13.trans hk4
        cases items with
        | none => exact keeps_pure (hstop hk14)
        | some items =>
            have hpurging : Purging u i f fc recorded items 0 s4 := by
              refine ⟨hsec.kept hk14, hitems items rfl, fun hacc => ?_, fun _ => ?_⟩
              · rw [hrecorded hacc, ← (hk3.trans hk4).calm.recorded hacc]
              · exact (hlisted.steady hk4.calm.toSteady).reach
            refine (removeItems_keeps hdir hinv4 hpurging).andThen hinv4 ?_
            rintro removed s5 hinv5 ⟨hin5, hframe5, hnone, hsome⟩
            have hframe15 := (hk14.frame hinv4).trans hframe5
            cases removed with
            | none =>
                apply keeps_pure
                intro s6 hrely hinv6
                have hdone : Done u i f s1 s5 := ⟨.unaccounted hin5 (hnone rfl), hframe15⟩
                exact hdone.kept (.of_rely hin5 hrely) hinv6
            | some removed =>
                obtain ⟨hsec5, hrecorded5⟩ := hsome removed rfl
                refine (subtract_keeps hinv5 hsec5 hrecorded5).mono ?_
                exact fun _ s6 _ hdone => ⟨hdone.section_, hframe15.trans hdone.frame⟩

end Usage

end Skunk.BesUtils
