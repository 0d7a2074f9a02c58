import Skunk.BesUtils.FaultyOps

/-!
# Runs of a cache whose calls fail

What processes do outside the lock of the cache, and with it every operation: each keeps the protocol, so
in every run with harmless outcomes nothing is subtracted that is not recorded (`never_wraps`). Without
them it takes one short write of an item to wrap the recorded size (`wraps`).
-/

namespace Skunk.BesUtils

open Effect Posix

namespace Faulty

variable {u : Usage} {i fd : Nat} {info x : Option Nat} {op : CacheOp} {t : Session} {s s' s'' : View}
  {o : OpenFile} {fc : FileCache}

/-! ## `initialize` -/

/-- A client that has at most more than it had. -/
theorem leaves_of_opened {K' : Kernel} (hopened : ∀ g y, s.1.opened g = some y → K'.opened g = some y)
    (hinfo : ∀ ino, u.IsInfo s.1 ino → u.IsInfo K' ino) (hnext : s.1.nextFd ≤ K'.nextFd) :
    Leaves u i info x s (K', s.2) := by
  refine ⟨fun g y _ _ hy _ => hopened g y hy, ?_, fun _ _ _ _ => Iff.rfl, hnext⟩
  rintro f - ⟨y, hy, hi, hino⟩
  exact ⟨y, hopened f y hy, hi, hinfo _ hino⟩

/-- Nothing was open under a descriptor that is new. -/
theorem Leaves.of_new (h : Leaves u i info (some fd) s s') (hwf : s.1.Wf) (hfd : s.1.nextFd ≤ fd) :
    Leaves u i info none s s' where
  own := by
    intro g y hg _ hy hi
    refine h.own g y hg ?_ hy hi
    rintro ⟨⟩
    exact absurd (hwf.fd_lt fd y hy) (Nat.not_lt.mpr hfd)
  info := h.info
  claims := by
    intro c hc hlt _
    refine h.claims c hc hlt ?_
    rintro ⟨⟩
    exact absurd hlt (Nat.not_lt.mpr hfd)
  next := h.next

/-- A file of the client's own has been written to, or it has moved in it. -/
theorem leaves_of_own {ino : Nat} {bytes : List UInt8} {o' : OpenFile} (hinfo : info ≠ some fd) :
    Leaves u i info (some fd) s ((s.1.setData ino bytes).setOpen fd (some o'), s.2) := by
  refine ⟨fun g y _ hg hy _ => ?_, ?_, fun _ _ _ _ => Iff.rfl, Nat.le_refl _⟩
  · rw [Kernel.setOpen_opened_of_ne fun heq => hg (congrArg some heq.symm)]
    exact hy
  · rintro f hf ⟨y, hy, hi, hino⟩
    have hne : f ≠ fd := by
      rintro rfl
      exact hinfo hf
    exact ⟨y, by rw [Kernel.setOpen_opened_of_ne hne]; exact hy, hi, hino⟩

/-- What `initialize` leaves: the object is as it was, or it is for the directory and has the descriptor that
it had, or a new one, or none. -/
def Initialised (u : Usage) (i : Nat) (fc : FileCache) (s : View) (fc' : FileCache) (s' : View) : Prop :=
  fc' = fc ∨ fc'.cacheDir = u.dir ∧ (fc'.cacheInfoFd = fc.cacheInfoFd ∨
    ∀ f, fc'.cacheInfoFd = some f → s.1.nextFd ≤ f ∧ HasInfo u s'.1 i f)

theorem Initialised.rely {fc' : FileCache} (h : Initialised u i fc s fc' s') (hrely : Rely u i s' s'') :
    Initialised u i fc s fc' s'' :=
  h.imp_right fun ⟨hdir, hinfo⟩ => ⟨hdir, hinfo.imp_right fun hnew f hf =>
    ⟨(hnew f hf).1, hrely.hasInfo (hnew f hf).2⟩⟩

/-- The new `cache_info` gets its zero, in a way that does not change what is recorded. -/
theorem writeZero_keeps {dir : Text} {size purgeSize : Int} {bytes : List UInt8}
    (hop : op = .initCache dir size purgeSize) (ho : s.1.opened fd = some o) (hi : o.opener = i)
    (hino : u.IsInfo s.1 o.ino) (hinfo : info ≠ some fd) :
    Keeps u i op t (call (.write fd bytes)) (fun _ s' => Leaves u i info (some fd) s s' ∧
      HasInfo u s'.1 i fd) s := by
  refine keeps_call fun s1 hrely hinv => ⟨trivial, fun r w hdoes hsound => ?_⟩
  have ho1 := hrely.own fd o ho hi
  have hino1 := hrely.info _ hino
  subst hop
  have hsame : recordedSize u.home w = recordedSize u.home s1.1 := of_decide_eq_true hsound
  rcases Kernel.does_write ho1 hdoes with ⟨-, rfl⟩ | ⟨m, -, -, -, rfl⟩
  · refine ⟨s1.2, .same hinv, keeps_pure fun s2 hrely2 _ => ?_⟩
    exact ⟨.of_rely (hrely.trans hrely2) _ _, hrely2.hasInfo ⟨o, ho1, hi, hino1⟩⟩
  · have hrecorded : sizeIn (overwrite (s1.1.data o.ino) o.offset (bytes.take m)) = u.recorded s1 := by
      have heq := Usage.recorded_eq (u := u)
        (s := (s1.1.setData o.ino (overwrite (s1.1.data o.ino) o.offset (bytes.take m)), s1.2))
        (hinv.wf.setData _ _) hino1
      rw [Kernel.setData_data_self] at heq
      rw [← heq]
      exact hsame
    have hmove := Move.rewrite (i := i) (overwrite (s1.1.data o.ino) o.offset (bytes.take m)) hinv hino1
      hrecorded (length_le_overwrite _ _ _)
    have hmove2 := Move.offset (i := i) hmove.inv ho1 hi (o.offset + m)
    refine ⟨s1.2, hmove.trans hmove2, keeps_pure fun s2 hrely2 _ => ⟨?_, ?_⟩⟩
    · exact ((Leaves.of_rely hrely _ _).trans (leaves_of_own hinfo)).trans (.of_rely hrely2 _ _)
    · exact hrely2.hasInfo ⟨_, Kernel.setOpen_opened_self, hi, hino1⟩

/-- `cache_info` is opened or not, and nothing else of the client changes. -/
theorem openCacheInfo_keeps {dir : Text} {size purgeSize : Int} (hop : op = .initCache dir size purgeSize)
    (hdir : fc.cacheDir = u.dir) (hinfo : ∀ f, fc.cacheInfoFd = some f → f < s.1.nextFd) :
    Keeps u i op t fc.openCacheInfo (fun r s' => Leaves u i fc.cacheInfoFd none s s' ∧
      r.2.cacheDir = u.dir ∧ (r.2.cacheInfoFd = fc.cacheInfoFd ∨
        ∀ f, r.2.cacheInfoFd = some f → s.1.nextFd ≤ f ∧ HasInfo u s'.1 i f)) s := by
  rw [FileCache.openCacheInfo]
  split
  · exact keeps_pure fun s1 hrely _ => ⟨.of_rely hrely _ _, hdir, .inl rfl⟩
  refine keeps_call fun s1 hrely hinv1 => ⟨trivial, fun r w hdoes _ => ?_⟩
  rcases Kernel.does_create hdoes with ⟨rfl, rfl⟩ | ⟨loc, hloc, hnew, rfl, rfl⟩
  · refine ⟨s1.2, .same hinv1, keeps_call fun s2 hrely2 hinv2 => ⟨trivial, fun r w hdoes _ => ?_⟩⟩
    have hrely12 := hrely.trans hrely2
    rcases Kernel.does_openWrite hdoes with ⟨rfl, rfl⟩ | ⟨ino, hino, rfl, rfl⟩
    · refine ⟨s2.2, .same hinv2, keeps_pure fun s3 hrely3 _ => ?_⟩
      exact ⟨.of_rely (hrely12.trans hrely3) _ _, hdir, .inr fun f hf => absurd hf.symm (Option.some_ne_none f)⟩
    · obtain ⟨loc, hloc, hlook⟩ := Option.bind_eq_some_iff.mp hino
      obtain rfl := Usage.locate_keyFileName hdir isFileName_cacheInfoName hloc
      have hfile : u.IsInfo s2.1 ino := hinv2.wf.lookup_files.mp hlook
      have hlt := hinv2.wf.entry_lt _ (Kernel.mem_entries_of_file hfile)
      have hd : Usage.Differs s2.1 (s2.1.addOpen i ino) s2.1.nextFd (some ⟨ino, 0, none, i⟩) :=
        ⟨rfl, rfl, rfl, rfl⟩
      -- the descriptor is new, so there is no lock that could be lost
      have hnone : ∀ y, s2.1.opened s2.1.nextFd ≠ some y := fun y hy => hinv2.next_ne hy rfl
      have hmove : Move u i s2 (s2.1.addOpen i ino, s2.2) :=
        .of_differs hinv2 (hinv2.wf.addOpen i hlt) hd (Nat.le_succ _) (fun y hy => absurd hy (hnone y))
          (fun _ y hy => absurd hy (hnone y))
      have hopened : ∀ g y, s2.1.opened g = some y → (s2.1.addOpen i ino).opened g = some y := by
        intro g y hy
        rw [hd.opened_ne (hinv2.next_ne hy)]
        exact hy
      refine ⟨s2.2, hmove, keeps_pure fun s3 hrely3 _ => ⟨?_, hdir, .inr ?_⟩⟩
      · have hleaves : Leaves u i fc.cacheInfoFd none s2 (s2.1.addOpen i ino, s2.2) :=
          leaves_of_opened hopened (fun _ hi => hi) (Nat.le_succ _)
        exact ((Leaves.of_rely hrely12 _ _).trans hleaves).trans (.of_rely hrely3 _ _)
      · rintro _ ⟨⟩
        exact ⟨hrely12.next, hrely3.hasInfo ⟨_, hd.opened_self, rfl, hfile⟩⟩
  · obtain rfl := Usage.locate_keyFileName hdir isFileName_cacheInfoName hloc
    have hmove := Move.addFile (i := i) (f := 0) hinv1 hnew (Kernel.locate_names hloc) (.inr rfl)
    have hopened : ∀ g y, s1.1.opened g = some y → (s1.1.addFile i u.infoLoc).opened g = some y := by
      intro g y hy
      rw [Kernel.addFile_opened_of_ne (hinv1.next_ne hy)]
      exact hy
    have hleaves : Leaves u i fc.cacheInfoFd none s1 (s1.1.addFile i u.infoLoc, s1.2) :=
      leaves_of_opened hopened (fun _ hi => List.mem_cons_of_mem _ hi) (Nat.le_succ _)
    -- the old descriptor is smaller than all that come later
    have hne : fc.cacheInfoFd ≠ some s1.1.nextFd :=
      fun heq => Nat.lt_irrefl _ (Nat.lt_of_lt_of_le (hinfo _ heq) hrely.next)
    refine ⟨s1.2, hmove, ?_⟩
    refine (writeZero_keeps hop Kernel.addFile_opened_self rfl List.mem_cons_self hne).andThen hmove.inv ?_
    rintro written s2 - ⟨hleaves2, hhas⟩
    refine keeps_pure fun s3 hrely3 _ => ⟨?_, hdir, .inr ?_⟩
    · have hall := ((hleaves.weaken _).trans hleaves2).trans (.of_rely hrely3 _ _)
      exact (Leaves.of_rely hrely _ _).trans (hall.of_new hinv1.wf (Nat.le_refl _))
    · rintro _ ⟨⟩
      exact ⟨hrely.next, hrely3.hasInfo hhas⟩

theorem nextFd_makeFolders (K : Kernel) (cur ps : List Text) : (K.makeFolders cur ps).nextFd = K.nextFd := by
  induction ps generalizing K cur with
  | nil => rfl
  | cons p ps ih =>
      rw [Kernel.makeFolders]
      split
      · split
        · exact ih K _
        · exact ih _ _
      · rfl

/-- Making folders. -/
theorem mkdirP_keeps {dir : Text} (hinv : Inv u s) :
    Inv u (s.1.makeFolders [] (pieces (cStr dir)), s.2) ∧
      ∀ j, Rely u j s (s.1.makeFolders [] (pieces (cStr dir)), s.2) := by
  have hgrows := Usage.grows_makeFolders s.1 [] (pieces (cStr dir))
  refine quiet hinv (hinv.wf.makeFolders (by simp) fun p hp => Kernel.pieces_cStr hp) ?_ hgrows.folders
    hgrows.opened ?_ hgrows.data
  · rw [hgrows.files]
  · rw [nextFd_makeFolders]

/-- `initialize` leaves an object with a descriptor for `cache_info`, or without one. -/
theorem initCache_keeps {dir : Text} {size purgeSize : Int} (hop : op = .initCache dir size purgeSize)
    (hdir : dir = u.dir) (hinv : Inv u s) (hinfo : ∀ f, fc.cacheInfoFd = some f → f < s.1.nextFd) :
    Keeps u i op t (fc.initCache dir size purgeSize) (fun r s' => Leaves u i fc.cacheInfoFd none s s' ∧
      Initialised u i fc s r.2 s') s := by
  rw [FileCache.initCache]
  split
  · exact keeps_pure fun s1 hrely _ => ⟨.of_rely hrely _ _, .inl rfl⟩
  -- looking for the directory
  have hstat : ∀ s1, Inv u s1 → Rely u i s s1 →
      Keeps u i op t (call (.stat dir)) (fun _ s2 => Rely u i s s2) s1 := by
    intro s1 _ hrely1
    refine keeps_call fun s2 hrely2 hinv2 => ⟨trivial, fun r w hdoes _ => ?_⟩
    obtain rfl := eq_of_asks rfl hdoes
    exact ⟨s2.2, .same hinv2, keeps_pure fun s3 hrely3 _ => (hrely1.trans hrely2).trans hrely3⟩
  -- opening `cache_info`
  have hopen : ∀ s1 (there : Bool), Inv u s1 → Rely u i s s1 → Keeps u i op t (if there then do
      let opened ← FileCache.openCacheInfo { fc with cacheDir := dir }
      if opened.1 then
        pure (true, { opened.2 with
          maxCacheSizeInBytes := size.toNat
          purgeSize := purgeSize.toNat })
      else pure (false, opened.2)
    else pure (false, fc)) (fun r s' => Leaves u i fc.cacheInfoFd none s s' ∧
      Initialised u i fc s r.2 s') s1 := by
    intro s1 there hinv1 hrely1
    split
    · refine (openCacheInfo_keeps hop hdir fun f hf => ?_).andThen hinv1 ?_
      · exact Nat.lt_of_lt_of_le (hinfo f hf) hrely1.next
      rintro ⟨opened, fc'⟩ s2 - ⟨hleaves, hdir', hfd⟩
      have hleaves2 : Leaves u i fc.cacheInfoFd none s s2 := (Leaves.of_rely hrely1 _ _).trans hleaves
      have hfd2 : fc'.cacheInfoFd = fc.cacheInfoFd ∨
          ∀ f, fc'.cacheInfoFd = some f → s.1.nextFd ≤ f ∧ HasInfo u s2.1 i f :=
        hfd.imp_right fun hnew f hf => ⟨Nat.le_trans hrely1.next (hnew f hf).1, (hnew f hf).2⟩
      split
      · refine keeps_pure fun s3 hrely3 _ => ⟨hleaves2.trans (.of_rely hrely3 _ _), ?_⟩
        exact Initialised.rely (.inr ⟨hdir', hfd2⟩) hrely3
      · refine keeps_pure fun s3 hrely3 _ => ⟨hleaves2.trans (.of_rely hrely3 _ _), ?_⟩
        exact Initialised.rely (.inr ⟨hdir', hfd2⟩) hrely3
    · exact keeps_pure fun s2 hrely2 _ => ⟨.of_rely (hrely1.trans hrely2) _ _, .inl rfl⟩
  refine (hstat s hinv (.refl i s)).andThen hinv ?_
  intro found s1 hinv1 hrely1
  cases found with
  | some found => exact hopen s1 true hinv1 hrely1
  | none =>
      refine keeps_call fun s2 hrely2 hinv2 => ⟨trivial, fun r w hdoes _ => ?_⟩
      obtain ⟨-, rfl⟩ := Prod.mk.inj (Option.some.inj (exec_of_mayFail rfl hdoes))
      obtain ⟨hinv3, hrely3⟩ := mkdirP_keeps hinv2
      refine ⟨s2.2, ⟨hinv3, fun j _ => hrely3 j⟩, ?_⟩
      refine (hstat _ hinv3 ((hrely1.trans hrely2).trans (hrely3 i))).andThen hinv3 ?_
      exact fun found s4 hinv4 hrely4 => hopen s4 found.isSome hinv4 hrely4

/-! ## The holder of a `PutItem` -/

/-- The holder of a `PutItem` writes to it. -/
theorem writePutItem_keeps {bytes : List UInt8} (h : HasPutItem i fd s) (hinfo : info ≠ some fd) :
    Keeps u i op t (call (.write fd bytes)) (fun _ s' => Leaves u i info (some fd) s s' ∧
      HasPutItem i fd s') s := by
  obtain ⟨o, ho, hi, hclaim⟩ := h
  refine keeps_call fun s1 hrely hinv => ⟨trivial, fun r w hdoes _ => ?_⟩
  have ho1 := hrely.own fd o ho hi
  have hclaim1 := (hrely.claims ⟨i, fd, o.ino⟩ rfl).mpr hclaim
  rcases Kernel.does_write ho1 hdoes with ⟨-, rfl⟩ | ⟨m, -, -, -, rfl⟩
  · refine ⟨s1.2, .same hinv, keeps_pure fun s2 hrely2 _ => ⟨.of_rely (hrely.trans hrely2) _ _, ?_⟩⟩
    exact ⟨o, hrely2.own fd o ho1 hi, hi, (hrely2.claims _ rfl).mpr hclaim1⟩
  · have hmove := Move.fill (overwrite (s1.1.data o.ino) o.offset (bytes.take m)) hinv hclaim1 rfl
      (length_le_overwrite _ _ _)
    have hmove2 := Move.offset (i := i) hmove.inv ho1 hi (o.offset + m)
    refine ⟨s1.2, hmove.trans hmove2, keeps_pure fun s2 hrely2 _ => ⟨?_, ?_⟩⟩
    · exact ((Leaves.of_rely hrely _ _).trans (leaves_of_own hinfo)).trans (.of_rely hrely2 _ _)
    · exact ⟨_, hrely2.own fd _ Kernel.setOpen_opened_self hi, hi, (hrely2.claims _ rfl).mpr hclaim1⟩

/-- The holder of a `PutItem` moves in it. -/
theorem seekPutItem_keeps {pos : Nat} (h : HasPutItem i fd s) (hinfo : info ≠ some fd) :
    Keeps u i op t (call (.seek fd pos)) (fun _ s' => Leaves u i info (some fd) s s' ∧
      HasPutItem i fd s') s := by
  obtain ⟨o, ho, hi, hclaim⟩ := h
  refine keeps_call fun s1 hrely hinv => ⟨trivial, fun r w hdoes _ => ?_⟩
  have ho1 := hrely.own fd o ho hi
  have hexec := exec_of_mayFail rfl hdoes
  rw [Kernel.exec_seek ho1] at hexec
  obtain ⟨-, rfl⟩ := Prod.mk.inj (Option.some.inj hexec)
  refine ⟨s1.2, .offset hinv ho1 hi pos, keeps_pure fun s2 hrely2 _ => ⟨?_, ?_⟩⟩
  · have hleaves : Leaves u i info (some fd) s1
        ((s1.1.setData o.ino (s1.1.data o.ino)).setOpen fd (some { o with offset := pos }), s1.2) :=
      leaves_of_own hinfo
    rw [setData_self] at hleaves
    exact ((Leaves.of_rely hrely _ _).trans hleaves).trans (.of_rely hrely2 _ _)
  · refine ⟨_, hrely2.own fd _ Kernel.setOpen_opened_self hi, hi, (hrely2.claims _ rfl).mpr ?_⟩
    exact (hrely.claims ⟨i, fd, o.ino⟩ rfl).mpr hclaim

/-! ## Between operations -/

/-- What holds of a process that is not busy: it has all its descriptors, and the files of its `PutItem`s are
pending. -/
structure Idle (u : Usage) (i : Nat) (t : Session) (s : View) : Prop where
  info : ∀ f, t.cache.cacheInfoFd = some f → HasInfo u s.1 i f
  dir : ∀ f, t.cache.cacheInfoFd = some f → t.cache.cacheDir = u.dir
  nodup : (t.putItems ++ t.items).Nodup
  apart : ∀ fd ∈ t.putItems ++ t.items, t.cache.cacheInfoFd ≠ some fd
  putItems : ∀ fd ∈ t.putItems, HasPutItem i fd s
  items : ∀ fd ∈ t.items, HasReader i fd s

theorem Idle.rely (h : Idle u i t s) (hrely : Rely u i s s') : Idle u i t s' where
  info := fun f hf => hrely.hasInfo (h.info f hf)
  dir := h.dir
  nodup := h.nodup
  apart := h.apart
  putItems := by
    intro fd hfd
    obtain ⟨o, ho, hi, hclaim⟩ := h.putItems fd hfd
    exact ⟨o, hrely.own fd o ho hi, hi, (hrely.claims _ rfl).mpr hclaim⟩
  items := by
    intro fd hfd
    obtain ⟨o, ho, hi, hlock⟩ := h.items fd hfd
    exact ⟨o, hrely.own fd o ho hi, hi, hlock⟩

/-- The descriptors of the items are open. -/
theorem Idle.lt (h : Idle u i t s) (hinv : Inv u s) (hfd : fd ∈ t.putItems ++ t.items) : fd < s.1.nextFd := by
  rcases List.mem_append.mp hfd with hfd | hfd
  · obtain ⟨o, ho, -⟩ := h.putItems fd hfd
    exact hinv.wf.fd_lt fd o ho
  · obtain ⟨o, ho, -⟩ := h.items fd hfd
    exact hinv.wf.fd_lt fd o ho

theorem Idle.new (h : Idle u i t s) (hinv : Inv u s) (hfd : s.1.nextFd ≤ fd) : fd ∉ t.putItems ++ t.items :=
  fun hmem => absurd (h.lt hinv hmem) (Nat.not_lt.mpr hfd)

/-- The items that a process has after an operation: some of those that it had, and perhaps others. -/
theorem Idle.leaves {putItems items : List Nat} (h : Idle u i t s) (hinv : Inv u s)
    (hleaves : Leaves u i t.cache.cacheInfoFd x s s') (answer : Bool) (hnodup : (putItems ++ items).Nodup)
    (hput : ∀ fd ∈ putItems, fd ∈ t.putItems ∧ x ≠ some fd ∨
      t.cache.cacheInfoFd ≠ some fd ∧ HasPutItem i fd s')
    (hitems : ∀ fd ∈ items, fd ∈ t.items ∧ x ≠ some fd ∨ t.cache.cacheInfoFd ≠ some fd ∧ HasReader i fd s') :
    Idle u i ⟨t.cache, putItems, items, answer⟩ s' where
  info := fun f hf => hleaves.info f hf (h.info f hf)
  dir := h.dir
  nodup := hnodup
  apart := by
    intro fd hfd
    rcases List.mem_append.mp hfd with hfd | hfd
    · rcases hput fd hfd with ⟨hmem, -⟩ | ⟨hne, -⟩
      · exact h.apart fd (List.mem_append_left _ hmem)
      · exact hne
    · rcases hitems fd hfd with ⟨hmem, -⟩ | ⟨hne, -⟩
      · exact h.apart fd (List.mem_append_right _ hmem)
      · exact hne
  putItems := by
    intro fd hfd
    rcases hput fd hfd with ⟨hmem, hx⟩ | ⟨-, hhas⟩
    · exact (h.putItems fd hmem).leaves hinv hleaves (h.apart fd (List.mem_append_left _ hmem)) hx
    · exact hhas
  items := by
    intro fd hfd
    rcases hitems fd hfd with ⟨hmem, hx⟩ | ⟨-, hhas⟩
    · exact (h.items fd hmem).leaves hleaves (h.apart fd (List.mem_append_right _ hmem)) hx
    · exact hhas

/-- The items are those that the process had. -/
theorem Idle.same (h : Idle u i t s) (hinv : Inv u s) (hleaves : Leaves u i t.cache.cacheInfoFd none s s')
    (answer : Bool) : Idle u i { t with answer := answer } s' :=
  h.leaves hinv hleaves answer h.nodup (fun _ hfd => .inl ⟨hfd, nofun⟩) (fun _ hfd => .inl ⟨hfd, nofun⟩)

/-- What an operation leaves that returns nothing but its success. -/
theorem Idle.answered {p : Sys Bool} (h : Idle u i t s) (hinv : Inv u s)
    (hp : Keeps u i op t p (fun _ s' => Leaves u i t.cache.cacheInfoFd none s s') s) :
    Keeps u i op t (do
      let result ← p
      pure { t with answer := result }) (Idle u i) s := by
  refine hp.andThen hinv ?_
  intro result s1 _ hleaves
  exact keeps_pure fun s2 hrely _ => (h.same hinv hleaves result).rely hrely

/-- The holder of a `PutItem` has moved in it. -/
theorem Idle.moved (h : Idle u i t s) (hinv : Inv u s) (hfd : fd ∈ t.putItems)
    (hleaves : Leaves u i t.cache.cacheInfoFd (some fd) s s') (hhas : HasPutItem i fd s') (answer : Bool) :
    Idle u i { t with answer := answer } s' := by
  refine h.leaves hinv hleaves answer h.nodup ?_ ?_
  · intro g hg
    by_cases hgfd : g = fd
    · subst hgfd
      exact .inr ⟨h.apart g (List.mem_append_left _ hg), hhas⟩
    · exact .inl ⟨hg, fun heq => hgfd (Option.some.inj heq).symm⟩
  · intro g hg
    refine .inl ⟨hg, ?_⟩
    rintro ⟨⟩
    exact (List.nodup_append.mp h.nodup).2.2 fd hfd fd hg rfl

theorem Idle.initialised {fc' : FileCache} (h : Idle u i t s) (hinv : Inv u s)
    (hleaves : Leaves u i t.cache.cacheInfoFd none s s') (hdone : Initialised u i t.cache s fc' s')
    (answer : Bool) : Idle u i { t with cache := fc', answer := answer } s' := by
  have hidle := h.same hinv hleaves answer
  rcases hdone with rfl | ⟨hdir, hsame | hnew⟩
  · exact hidle
  · refine ⟨fun f hf => hidle.info f (hsame.symm.trans hf), fun _ _ => hdir, hidle.nodup, fun fd hfd => ?_,
      hidle.putItems, hidle.items⟩
    show fc'.cacheInfoFd ≠ some fd
    rw [hsame]
    exact hidle.apart fd hfd
  · refine ⟨fun f hf => (hnew f hf).2, fun _ _ => hdir, hidle.nodup, fun fd hfd heq => ?_, hidle.putItems,
      hidle.items⟩
    exact h.new hinv (hnew fd heq).1 hfd

/-- Every operation keeps the protocol. -/
theorem run_keeps (hop : Usage.inDir u.dir op) (hinv : Inv u s) (h : Idle u i t s) :
    Keeps u i op t (op.run t) (Idle u i) s := by
  cases op with
  | initCache cacheDir size purgeSize =>
      refine (initCache_keeps rfl hop hinv fun f hf => ?_).andThen hinv ?_
      · obtain ⟨o, ho, -⟩ := h.info f hf
        exact hinv.wf.fd_lt f o ho
      · rintro result s1 - ⟨hleaves, hdone⟩
        exact keeps_pure fun s2 hrely _ => (h.initialised hinv hleaves hdone result.1).rely hrely
  | put key fileName => exact h.answered hinv (put_keeps trivial hinv h.info)
  | putData key data => exact h.answered hinv (putData_keeps trivial hinv h.info)
  | putItem key =>
      refine (putItem_keeps hinv h.info).andThen hinv ?_
      rintro ⟨result, r⟩ s1 - ⟨hleaves, hgains⟩
      refine keeps_pure fun s2 hrely _ => Idle.rely ?_ hrely
      cases r with
      | none => exact h.same hinv hleaves result
      | some fd =>
          obtain ⟨hnew, hne, hhas⟩ := hgains fd rfl
          refine h.leaves hinv hleaves result (List.nodup_cons.mpr ⟨h.new hinv hnew, h.nodup⟩) ?_
            (fun _ hfd => .inl ⟨hfd, nofun⟩)
          intro g hg
          rcases List.mem_cons.mp hg with rfl | hg
          · exact .inr ⟨hne, hhas⟩
          · exact .inl ⟨hg, nofun⟩
  | writePutItem fd bytes =>
      rw [CacheOp.run]
      split
      next hfd =>
        refine (writePutItem_keeps (h.putItems fd hfd) (h.apart fd (List.mem_append_left _ hfd))).andThen hinv ?_
        rintro written s1 - ⟨hleaves, hhas⟩
        exact keeps_pure fun s2 hrely _ => (h.moved hinv hfd hleaves hhas _).rely hrely
      · exact keeps_pure fun s1 hrely _ => (h.same hinv (.of_rely (.refl i s) _ _) false).rely hrely
  | seekPutItem fd pos =>
      rw [CacheOp.run]
      split
      next hfd =>
        refine (seekPutItem_keeps (h.putItems fd hfd) (h.apart fd (List.mem_append_left _ hfd))).andThen hinv ?_
        rintro sought s1 - ⟨hleaves, hhas⟩
        exact keeps_pure fun s2 hrely _ => (h.moved hinv hfd hleaves hhas sought).rely hrely
      · exact keeps_pure fun s1 hrely _ => (h.same hinv (.of_rely (.refl i s) _ _) false).rely hrely
  | destroyPutItem fd =>
      rw [CacheOp.run]
      split
      next hfd =>
        refine (destroyPutItem_keeps rfl hinv h.info (h.apart fd (List.mem_append_left _ hfd))
          (h.putItems fd hfd)).andThen hinv ?_
        intro _ s1 _ hleaves
        refine keeps_pure fun s2 hrely _ => Idle.rely ?_ hrely
        have hsub : (t.putItems.erase fd ++ t.items).Sublist (t.putItems ++ t.items) :=
          List.erase_sublist.append_right _
        refine h.leaves hinv hleaves true (hsub.nodup h.nodup) ?_ ?_
        · intro g hg
          obtain ⟨hne, hmem⟩ := (List.nodup_append.mp h.nodup).1.mem_erase_iff.mp hg
          exact .inl ⟨hmem, fun heq => hne (Option.some.inj heq).symm⟩
        · intro g hg
          refine .inl ⟨hg, ?_⟩
          rintro ⟨⟩
          exact (List.nodup_append.mp h.nodup).2.2 fd hfd fd hg rfl
      · exact keeps_pure fun s1 hrely _ => (h.same hinv (.of_rely (.refl i s) _ _) false).rely hrely
  | destroyEmptyPutItem =>
      refine (destroyEmptyPutItem_keeps (show Adds .destroyEmptyPutItem from trivial) hinv h.info).andThen hinv ?_
      intro _ s1 _ hleaves
      exact keeps_pure fun s2 hrely _ => (h.same hinv hleaves true).rely hrely
  | get key =>
      refine (get_keeps hinv h.info).andThen hinv ?_
      rintro ⟨result, r⟩ s1 - ⟨hleaves, hgains⟩
      refine keeps_pure fun s2 hrely _ => Idle.rely ?_ hrely
      cases r with
      | none => exact h.same hinv hleaves result
      | some fd =>
          obtain ⟨hnew, hne, hhas⟩ := hgains fd rfl
          refine h.leaves hinv hleaves result ?_ (fun _ hfd => .inl ⟨hfd, nofun⟩) ?_
          · exact List.perm_middle.nodup_iff.mpr (List.nodup_cons.mpr ⟨h.new hinv hnew, h.nodup⟩)
          · intro g hg
            rcases List.mem_cons.mp hg with rfl | hg
            · exact .inr ⟨hne, hhas⟩
            · exact .inl ⟨hg, nofun⟩
  | closeItem fd =>
      rw [CacheOp.run]
      split
      next hfd =>
        obtain ⟨o, ho, hi, hlock⟩ := h.items fd hfd
        refine (closeOwn_keeps ho hi (h.apart fd (List.mem_append_right _ hfd)) ?_).andThen hinv ?_
        · -- what is pending is locked exclusively
          intro s1 r w hrely hinv1 _ c hc hcfd
          obtain ⟨y, hy, -, -, hexcl, -⟩ := hinv1.claim c hc
          rw [hcfd, hrely.own fd o ho hi] at hy
          obtain rfl := Option.some.inj hy
          exact absurd hexcl hlock
        · intro closed s1 _ hleaves
          refine keeps_pure fun s2 hrely _ => Idle.rely ?_ hrely
          have hsub : (t.putItems ++ t.items.erase fd).Sublist (t.putItems ++ t.items) :=
            List.erase_sublist.append_left _
          refine h.leaves hinv hleaves closed (hsub.nodup h.nodup) ?_ ?_
          · intro g hg
            refine .inl ⟨hg, ?_⟩
            rintro ⟨⟩
            exact (List.nodup_append.mp h.nodup).2.2 fd hg fd hfd rfl
          · intro g hg
            obtain ⟨hne, hmem⟩ := (List.nodup_append.mp h.nodup).2.1.mem_erase_iff.mp hg
            exact .inl ⟨hmem, fun heq => hne (Option.some.inj heq).symm⟩
      · exact keeps_pure fun s1 hrely _ => (h.same hinv (.of_rely (.refl i s) _ _) false).rely hrely
  | del key => exact h.answered hinv (del_keeps rfl hinv h.info)
  | clear => exact h.answered hinv (clear_keeps hinv h.info h.dir)
  | purge => exact h.answered hinv (purge_keeps rfl hinv h.info h.dir)

/-- The processes keep the protocol. -/
theorem obligations (u : Usage) : Machine.Obligations (soundClients u.dir) (protocol u) (Idle u) where
  stable := fun h hrely _ => h.rely hrely
  start := fun hop hinv h => run_keeps hop hinv h
  drift := by
    intro w w' g hdrift hinv
    refine quiet hinv (hinv.wf.drift hdrift) hdrift.files ?_ hdrift.opened ?_ fun _ _ => by rw [hdrift.data]
    · rw [hdrift.folders]
      exact fun _ he => he
    · rw [hdrift.nextFd]

/-! ## Runs -/

variable {a b : Scene sysCalls Kernel Session CacheOp}

/-- In every run of processes that share a cache, whatever calls fail, what `del` and `purge` subtract from
the size that they have read is not more than that, if what is recorded is enough at the start and each
outcome is harmless. -/
theorem never_wraps {dir : Text} (hdir : '\x00' ∉ dir) (hwf : a.world.Wf)
    (hnew : ∀ i, a.doing i = .idle .new)
    (henough : itemBytes (resolve dir) a.world ≤ recordedSize (resolve dir) a.world)
    (hreach : (soundClients dir).Reaches a b) :
    ∀ i op t x y k, b.doing i = .busy op t (SysCall.subtract x y) k → y ≤ x := by
  let u : Usage := ⟨dir, none, true, false, true, hdir⟩
  have hstart : Machine.Coupled (soundClients dir) (protocol u) (Idle u) a ⟨none, []⟩ := by
    refine ⟨⟨hwf, nofun, ?_⟩, fun i => ?_⟩
    · rw [Usage.counted_nil]
      exact henough
    · rw [hnew i]
      exact ⟨nofun, nofun, List.nodup_nil, nofun, nofun, nofun⟩
  intro i op t x y k hdoing
  obtain ⟨g, hcoupled⟩ := (obligations u).reaches hstart hreach
  exact hcoupled.safe hdoing

/-- What client `i` is about to subtract, and from what. -/
def subtraction (b : Scene sysCalls Kernel Session CacheOp) (i : Nat) : Option (Nat × Nat) :=
  match b.doing i with
  | .busy _ _ (.subtract x y) _ => some (x, y)
  | _ => none

theorem doing_of_subtraction {x y : Nat} (h : subtraction b i = some (x, y)) :
    ∃ op t k, b.doing i = .busy op t (SysCall.subtract x y) k := by
  rw [subtraction] at h
  split at h
  next op t x' y' k hdoing =>
    obtain ⟨rfl, rfl⟩ := Prod.mk.inj (Option.some.inj h)
    exact ⟨op, t, k, hdoing⟩
  · cases h

instance (dir : Text) : ∀ op, Decidable ((clients (Usage.inDir dir)).may op) :=
  fun op => inferInstanceAs (Decidable (Usage.inDir dir op))

instance (dir : Text) : ∀ op t c K r K', Decidable ((clients (Usage.inDir dir)).admits op t c K r K') :=
  fun _ _ _ _ _ _ => instDecidableTrue

instance (dir : Text) : ∀ op, Decidable ((soundClients dir).may op) :=
  fun op => inferInstanceAs (Decidable (Usage.inDir dir op))

instance (dir : Text) : ∀ op t c K r K', Decidable ((soundClients dir).admits op t c K r K') :=
  fun op t c K r K' => inferInstanceAs (Decidable (True ∧ sound (resolve dir) op t c K r K' = true))

/-- Processes that have done nothing yet, beside an empty folder. -/
def beginning : Scene sysCalls Kernel Session CacheOp := ⟨Usage.oneFolder, fun _ => .idle .new⟩

/-- `del` subtracts what `put_data` has added, after a `put_data` of another item whose `write` was
refused. -/
theorem never_wraps_refused : ∃ b, (soundClients ['/', 'c']).Reaches beginning b ∧
    subtraction b 0 = some (3, 3) ∧
    ∀ i op t x y k, b.doing i = .busy op t (SysCall.subtract x y) k → y ≤ x := by
  obtain ⟨b, hreach, hp⟩ := Machine.exists_reaches (soundClients ['/', 'c']) beginning
    ((0, .inl (.initCache ['/', 'c'] 0 0)) :: List.replicate 3 (0, .inr none) ++
      (0, .inl (.putData ['a'] [1, 2, 3])) :: List.replicate 12 (0, .inr none) ++
      (0, .inl (.putData ['b'] [7])) :: List.replicate 4 (0, .inr none) ++ (0, .inr (some .refused)) ::
      List.replicate 2 (0, .inr none) ++
      (0, .inl (.del ['a'])) :: List.replicate 8 (0, .inr none))
    (p := fun b => decide (subtraction b 0 = some (3, 3))) (by decide)
  have henough : itemBytes (resolve ['/', 'c']) beginning.world ≤
      recordedSize (resolve ['/', 'c']) beginning.world := by decide
  exact ⟨b, hreach, of_decide_eq_true hp,
    never_wraps (by decide) Usage.wf_oneFolder (fun _ => rfl) henough hreach⟩

/-- A `write` of an item comes to one of three bytes and its size is not added, but `del` subtracts it: the
recorded size wraps. -/
theorem wraps : ∃ b, (clients (Usage.inDir ['/', 'c'])).Reaches beginning b ∧
    ∃ op t k, b.doing 0 = .busy op t (SysCall.subtract 0 1) k := by
  obtain ⟨b, hreach, hp⟩ := Machine.exists_reaches (clients (Usage.inDir ['/', 'c'])) beginning
    ((0, .inl (.initCache ['/', 'c'] 0 0)) :: List.replicate 3 (0, .inr none) ++
      (0, .inl (.putData ['a'] [1, 2, 3])) :: List.replicate 4 (0, .inr none) ++
      (0, .inr (some (.short 1))) :: List.replicate 2 (0, .inr none) ++
      (0, .inl (.del ['a'])) :: List.replicate 8 (0, .inr none))
    (p := fun b => decide (subtraction b 0 = some (0, 1))) (by decide)
  exact ⟨b, hreach, doing_of_subtraction (of_decide_eq_true hp)⟩

end Faulty

end Skunk.BesUtils
