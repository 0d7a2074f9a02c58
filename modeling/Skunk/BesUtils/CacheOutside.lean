import Skunk.BesUtils.CacheOps

/-!
# Outside the locked section

What clients do without the lock of the cache: `initialize`, which creates `cache_info` or opens it, and
the calls of the holder of a `PutItem`.
-/

namespace Skunk.BesUtils

open Effect Posix

namespace Usage

variable {u : Usage} {may : CacheOp → Prop} {i fd : Nat} {o : OpenFile} {s s' : View} {fc : FileCache}

/-- The client still has all that it had. -/
structure Abides (u : Usage) (i : Nat) (s s' : View) : Prop where
  out : Out i s'
  own : ∀ g x, Own u i g x s → Own u i g x s'
  file : ∀ ino, u.IsInfo s.1 ino → u.IsInfo s'.1 ino
  claims : ∀ c : Pending, c.client = i → (c ∈ s'.2.pending ↔ c ∈ s.2.pending)

theorem Abides.of_rely (hout : Out i s) (h : u.Rely i s s') : Abides u i s s' :=
  ⟨hout.of_rely h, fun _ _ hx => hx.of_rely h, h.info, h.claims⟩

theorem Abides.trans {s'' : View} (h : Abides u i s s') (h' : Abides u i s' s'') : Abides u i s s'' where
  out := h'.out
  own := fun g x hx => h'.own g x (h.own g x hx)
  file := fun ino hino => h'.file ino (h.file ino hino)
  claims := fun c hc => (h'.claims c hc).trans (h.claims c hc)

theorem Abides.rely {s'' : View} (h : Abides u i s s') (hrely : u.Rely i s' s'') : Abides u i s s'' :=
  h.trans (.of_rely h.out hrely)

theorem Abides.leaves (h : Abides u i s s') (hshared : u.shared = none) (info : Option Nat) :
    Leaves u i info none s s' where
  out := h.out
  own := fun g x _ _ hx => h.own g x hx
  info := by
    rintro f - ⟨x, hx, hinfo, hsh | ⟨-, hopener⟩⟩
    · rw [hshared] at hsh
      cases hsh
    · have hunshared : u.shared ≠ some f := by rw [hshared]; exact nofun
      exact ⟨x, (h.own f x ⟨hx, hopener, hunshared⟩).opened, h.file _ hinfo, .inr ⟨hshared, hopener⟩⟩
  claims := fun c hc _ => h.claims c hc

/-- A kernel with more in it. -/
theorem abides_of_opened {K' : Kernel} (hout : Out i s)
    (hopened : ∀ g x, s.1.opened g = some x → K'.opened g = some x)
    (hfiles : ∀ e ∈ s.1.files, e ∈ K'.files) : Abides u i s (K', s.2) :=
  ⟨hout, fun g x hx => ⟨hopened g x hx.opened, hx.opener, hx.unshared⟩, fun _ hino => hfiles _ hino,
    fun _ _ => Iff.rfl⟩

/-! ## `initialize` -/

section Init

/-- What `open_cache_info` leaves: a new descriptor for `cache_info`, perhaps. -/
def HasInfo (u : Usage) (i : Nat) (s : View) (fc : FileCache) (s' : View) : Prop :=
  Abides u i s s' ∧
    ∀ f, fc.cacheInfoFd = some f → fc.cacheDir = u.dir ∧ InfoFd u i f s' ∧ Fresh u i f s

theorem HasInfo.rely {s'' : View} (h : HasInfo u i s fc s') (hrely : u.Rely i s' s'') :
    HasInfo u i s fc s'' := by
  refine ⟨h.1.rely hrely, fun f hf => ?_⟩
  obtain ⟨hdir, hinfo, hfresh⟩ := h.2 f hf
  exact ⟨hdir, hinfo.of_rely hrely, hfresh⟩

theorem Abides.fresh (h : Abides u i s s') (hfresh : Fresh u i fd s') : Fresh u i fd s :=
  fun x hx => hfresh x (h.own fd x hx)

/-- `cache_info` of the directory. -/
theorem locate_cacheInfo {K : Kernel} {loc : List Text} (hdir : fc.cacheDir = u.dir)
    (hloc : K.locate (fc.keyFileName cacheInfoName) = some loc) : loc = u.infoLoc :=
  locate_keyFileName hdir isFileName_cacheInfoName hloc

/-- The new `cache_info` gets its zero. -/
theorem writeZero_keeps (hout : Out i s) (hshared : u.shared = none) (hown : Own u i fd o s)
    (hinfo : u.IsInfo s.1 o.ino) (hnew : o.offset = 0 ∧ o.lock = none)
    (hprep : u.accounts = true → u.prepared = false) :
    Keeps u may i (call (.write fd (encodeSize 0))) (fun _ s' =>
      Out i s' ∧ InfoFd u i fd s' ∧ (∀ g x, g ≠ fd → Own u i g x s → Own u i g x s') ∧
      (∀ ino, u.IsInfo s.1 ino → u.IsInfo s'.1 ino) ∧
      ∀ c : Pending, c.client = i → (c ∈ s'.2.pending ↔ c ∈ s.2.pending)) s := by
  intro s1 hrely hinv1
  have hown1 := hown.of_rely hrely
  have hinfo1 := hrely.info _ hinfo
  refine ⟨trivial, fun r w hexec htidy => ?_⟩
  rcases Kernel.exec_write (i := i) hown1.opened hexec with ⟨rfl, -, rfl⟩ | ⟨rfl, rfl⟩
  · rw [hnew.1]
    -- a new `cache_info` stands for zero already
    have hsame : u.accounts = true →
        sizeIn (overwrite (s1.1.data o.ino) 0 (encodeSize 0)) = u.recorded s1 := by
      intro hacc
      rw [sizeIn_overwrite _ (by decide)]
      exact ((htidy hacc).2 (hprep hacc) o hown1.opened hinfo1 hnew.2).symm
    obtain ⟨hinv2, hothers⟩ := Move.rewrite (i := i) (overwrite (s1.1.data o.ino) 0 (encodeSize 0)) hinv1
      hinfo1 hsame
    have hmove := Move.offset (c := .write fd (encodeSize 0)) (r := some (encodeSize 0).length) hinv2
      hown1.opened (.inl ⟨hown1.opener, hown1.unshared⟩) (0 + (encodeSize 0).length) rfl
    have hmove1 := Move.after hothers hmove rfl
    have hinfo2 : InfoFd u i fd ((s1.1.setData o.ino (overwrite (s1.1.data o.ino) 0
        (encodeSize 0))).setOpen fd (some { o with offset := 0 + (encodeSize 0).length }), s1.2) :=
      ⟨_, Kernel.setOpen_opened_self, hinfo1, .inr ⟨hshared, hown1.opener⟩⟩
    refine ⟨s1.2, hmove1.inv, hmove1.mark, hmove1.others, ?_⟩
    apply keeps_pure
    intro s2 hrely2 _
    refine ⟨?_, ?_, fun g x hg hx => ?_, fun ino hino => ?_, fun c hc => ?_⟩
    · intro f hf
      exact hout.of_rely hrely f ((hrely2.inside f).mp hf)
    · exact hinfo2.of_rely hrely2
    · refine Own.of_rely ?_ hrely2
      have hx1 := hx.of_rely hrely
      exact ⟨by rw [Kernel.setOpen_opened_of_ne hg]; exact hx1.opened, hx1.opener, hx1.unshared⟩
    · exact hrely2.info ino (hrely.info ino hino)
    · exact (hrely2.claims c hc).trans (hrely.claims c hc)
  · -- nothing was written
    refine ⟨s1.2, hinv1, rfl, fun j _ => Rely.refl j s1, ?_⟩
    apply keeps_pure
    intro s2 hrely2 _
    have hall := hrely.trans hrely2
    refine ⟨hout.of_rely hall, ?_, fun g x _ hx => hx.of_rely hall, hall.info, hall.claims⟩
    exact InfoFd.of_rely ⟨o, hown1.opened, hinfo1, .inr ⟨hshared, hown1.opener⟩⟩ hrely2

/-- An object that has no descriptor for `cache_info` gets one, or does not. -/
theorem openCacheInfo_keeps (hout : Out i s) (hshared : u.shared = none)
    (hdir : fc.cacheDir = u.dir) (hne : fc.cacheDir ≠ [])
    (hprep : u.accounts = true → u.prepared = false) :
    Keeps u may i fc.openCacheInfo (fun r s' => HasInfo u i s r.2 s') s := by
  have hunshared : ∀ g, u.shared ≠ some g := by
    rw [hshared]
    exact nofun
  rw [FileCache.openCacheInfo, if_neg hne]
  apply keeps_call
  intro s1 hrely hinv1
  have habides1 := Abides.of_rely hout hrely
  refine ⟨trivial, fun r w hexec _ => ?_⟩
  rcases Kernel.exec_create hexec with ⟨rfl, rfl⟩ | ⟨loc, hloc, hnew, rfl, rfl⟩
  · -- the file could not be created, so it is opened as it is
    refine ⟨s1.2, .same hinv1 rfl, ?_⟩
    apply keeps_call
    intro s2 hrely2 hinv2
    have habides2 := habides1.rely hrely2
    refine ⟨trivial, fun r w hexec2 _ => ?_⟩
    rcases Kernel.exec_openWrite hexec2 with ⟨-, rfl, rfl⟩ | ⟨ino, hino, rfl, rfl⟩
    · refine ⟨s2.2, .same hinv2 rfl, ?_⟩
      apply keeps_pure
      exact fun s3 hrely3 _ => ⟨habides2.rely hrely3, nofun⟩
    · obtain ⟨loc, hloc, hlook⟩ := Option.bind_eq_some_iff.mp hino
      obtain rfl := locate_cacheInfo hdir hloc
      have hfile : u.IsInfo s2.1 ino := hinv2.wf.lookup_files.mp hlook
      have hlt := hinv2.wf.entry_lt _ (Kernel.mem_entries_of_file hfile)
      refine ⟨s2.2, .addOpen hinv2 hlt (.inr hfile) rfl, ?_⟩
      have hopened : ∀ g x, s2.1.opened g = some x → (s2.1.addOpen i ino).opened g = some x := by
        intro g x hx
        rw [Kernel.addOpen_opened_of_ne (hinv2.next_ne hx)]
        exact hx
      have habides3 := habides2.trans (abides_of_opened habides2.out hopened fun _ he => he)
      apply keeps_pure
      intro s4 hrely4 _
      refine ⟨habides3.rely hrely4, ?_⟩
      rintro _ ⟨⟩
      refine ⟨hdir, InfoFd.of_rely ?_ hrely4, habides2.fresh hinv2.fresh_next⟩
      exact ⟨_, Kernel.addOpen_opened_self, hfile, .inr ⟨hshared, rfl⟩⟩
  · obtain rfl := locate_cacheInfo hdir hloc
    -- the file is new, and its zero has to be written
    have hmove := Move.addFile (i := i) (c := .create (fc.keyFileName cacheInfoName))
      (r := some s1.1.nextFd) hinv1 hnew (Kernel.locate_names hloc) (.inr rfl) rfl
    refine ⟨s1.2, hmove, ?_⟩
    have hopened : ∀ g x, s1.1.opened g = some x →
        (s1.1.addFile i u.infoLoc).opened g = some x := by
      intro g x hx
      rw [Kernel.addFile_opened_of_ne (hinv1.next_ne hx)]
      exact hx
    have habides2 := habides1.trans (abides_of_opened habides1.out hopened
      fun e he => List.mem_cons_of_mem _ he)
    have hown : Own u i s1.1.nextFd ⟨s1.1.nextIno, 0, none, i⟩ (s1.1.addFile i u.infoLoc, s1.2) :=
      ⟨Kernel.addFile_opened_self, rfl, hunshared _⟩
    have hfresh : Fresh u i s1.1.nextFd s := habides1.fresh hinv1.fresh_next
    refine (writeZero_keeps habides2.out hshared hown List.mem_cons_self ⟨rfl, rfl⟩ hprep).andThen
      hmove.inv ?_
    rintro written s3 - ⟨hout3, hinfo3, hown3, hfile3, hclaims3⟩
    apply keeps_pure
    intro s4 hrely4 _
    have habides3 : Abides u i s s3 := by
      refine ⟨hout3, fun g x hx => hown3 g x ?_ (habides2.own g x hx),
        fun ino hino => hfile3 ino (habides2.file ino hino),
        fun c hc => (hclaims3 c hc).trans (habides2.claims c hc)⟩
      rintro rfl
      exact hfresh x hx
    refine ⟨habides3.rely hrely4, ?_⟩
    rintro _ ⟨⟩
    exact ⟨hdir, hinfo3.of_rely hrely4, hfresh⟩

/-- A pathname that leads somewhere is not empty. -/
theorem ne_nil_of_inode {K : Kernel} {path : Text} (h : (K.inode path).isSome) : path ≠ [] := by
  rintro rfl
  cases h

/-- What `initialize` leaves. -/
def Initialised (u : Usage) (i : Nat) (fc : FileCache) (s : View) (fc' : FileCache) (s' : View) : Prop :=
  Abides u i s s' ∧ (fc' = fc ∨ HasInfo u i s fc' s')

theorem initCache_keeps {dir : Text} {size purgeSize : Int} (hinv : u.Inv s) (hout : Out i s)
    (hshared : u.shared = none) (hdir : dir = u.dir) (hprep : u.accounts = true → u.prepared = false) :
    Keeps u may i (fc.initCache dir size purgeSize) (fun r s' => Initialised u i fc s r.2 s') s := by
  -- nothing has changed in the object
  have hstop : ∀ {s1}, Abides u i s s1 → ∀ s2, u.Rely i s1 s2 → u.Inv s2 →
      Initialised u i fc s fc s2 := fun h s2 hrely _ => ⟨h.rely hrely, .inl rfl⟩
  rw [FileCache.initCache]
  split
  · exact keeps_pure fun s1 hrely hinv1 => hstop (.of_rely hout (Rely.refl i s)) s1 hrely hinv1
  · -- looking for the directory
    have hstat : ∀ {s1}, u.Inv s1 → Abides u i s s1 → Keeps u may i (call (.stat dir))
        (fun r s2 => Abides u i s s2 ∧ (r.isSome → dir ≠ [])) s1 := by
      intro s1 hinv1 habides s2 hrely hinv2
      refine ⟨trivial, fun r w hexec _ => ?_⟩
      obtain ⟨rfl, rfl⟩ := Prod.mk.inj (Option.some.inj hexec)
      refine ⟨s2.2, hinv2, rfl, fun j _ => Rely.refl j s2, ?_⟩
      apply keeps_pure
      intro s3 hrely3 _
      refine ⟨(habides.rely hrely).rely hrely3, fun hsome => ?_⟩
      rw [Option.isSome_map] at hsome
      exact ne_nil_of_inode hsome
    -- opening `cache_info`
    have hopen : ∀ {s1} (there : Bool), u.Inv s1 → Abides u i s s1 → (there = true → dir ≠ []) →
        Keeps u may i (if there then do
          let opened ← FileCache.openCacheInfo { fc with cacheDir := dir }
          if opened.1 then
            pure (true, { opened.2 with
              maxCacheSizeInBytes := size.toNat
              purgeSize := purgeSize.toNat })
          else pure (false, opened.2)
        else pure (false, fc)) (fun r s' => Initialised u i fc s r.2 s') s1 := by
      intro s1 there hinv1 habides1 hne
      cases there with
      | false => exact keeps_pure (hstop habides1)
      | true =>
          refine (openCacheInfo_keeps habides1.out hshared hdir (hne rfl) hprep).andThen hinv1 ?_
          rintro ⟨opened, fc'⟩ s2 - ⟨habides2, hinfo⟩
          have hinfo2 : HasInfo u i s fc' s2 := by
            refine ⟨habides1.trans habides2, fun f hf => ?_⟩
            obtain ⟨hdir', hinfo', hfresh⟩ := hinfo f hf
            exact ⟨hdir', hinfo', habides1.fresh hfresh⟩
          split
          · apply keeps_pure
            exact fun s3 hrely _ => ⟨hinfo2.1.rely hrely, .inr (hinfo2.rely hrely)⟩
          · apply keeps_pure
            exact fun s3 hrely _ => ⟨hinfo2.1.rely hrely, .inr (hinfo2.rely hrely)⟩
    refine (hstat hinv (.of_rely hout (Rely.refl i s))).andThen hinv ?_
    rintro found s1 hinv1 ⟨habides1, hfound⟩
    cases found with
    | some found => exact hopen true hinv1 habides1 fun _ => hfound rfl
    | none =>
        apply keeps_call
        intro s2 hrely hinv2
        refine ⟨trivial, fun r w hexec _ => ?_⟩
        obtain ⟨-, rfl⟩ := Prod.mk.inj (Option.some.inj hexec)
        have hmove := Move.mkdirP (i := i) dir hinv2 hprep
        have hgrows := grows_makeFolders s2.1 [] (pieces (cStr dir))
        have habides2 := (habides1.rely hrely).trans (abides_of_opened (habides1.out.of_rely hrely)
          (fun g x hx => by rwa [hgrows.opened]) (fun e he => by rwa [hgrows.files]))
        refine ⟨s2.2, hmove, ?_⟩
        refine (hstat hmove.inv habides2).andThen hmove.inv ?_
        rintro found s3 hinv3 ⟨habides3, hfound3⟩
        exact hopen found.isSome hinv3 habides3 hfound3

end Init

/-! ## The holder of a `PutItem` -/

section PutItem

variable {info : Option Nat}

/-- The client has moved in its file, and perhaps written to it. -/
structure Moved (u : Usage) (i fd : Nat) (o : OpenFile) (info : Option Nat) (s s' : View) : Prop where
  leaves : Leaves u i info (some fd) s s'
  own : ∃ pos, Own u i fd { o with offset := pos } s'
  claims : ∀ c : Pending, c.client = i → (c ∈ s'.2.pending ↔ c ∈ s.2.pending)

theorem Moved.rely {s'' : View} (h : Moved u i fd o info s s') (hrely : u.Rely i s' s'') :
    Moved u i fd o info s s'' := by
  obtain ⟨pos, hown⟩ := h.own
  exact ⟨h.leaves.rely hrely, ⟨pos, hown.of_rely hrely⟩,
    fun c hc => (hrely.claims c hc).trans (h.claims c hc)⟩

theorem Moved.of_rely (hout : Out i s) (hown : Own u i fd o s) (hrely : u.Rely i s s') :
    Moved u i fd o info s s' :=
  ⟨.of_rely hout hrely _, ⟨o.offset, hown.of_rely hrely⟩, hrely.claims⟩

theorem moved_setOpen (hout : Out i s) (hown : Own u i fd o s) (hinfo : info ≠ some fd) (ino : Nat)
    (bytes : List UInt8) (pos : Nat) :
    Moved u i fd o info s ((s.1.setData ino bytes).setOpen fd (some { o with offset := pos }), s.2) := by
  refine ⟨⟨fun f => hout f, ?_, ?_, fun _ _ _ => Iff.rfl⟩,
    ⟨pos, Kernel.setOpen_opened_self, hown.opener, hown.unshared⟩, fun _ _ => Iff.rfl⟩
  · intro g x hmod _ hx
    have hg : g ≠ fd := fun hg => hmod (congrArg some hg.symm)
    exact ⟨by rw [Kernel.setOpen_opened_of_ne hg]; exact hx.opened, hx.opener, hx.unshared⟩
  · rintro f hf ⟨x, hx, hfile, hwho⟩
    have hg : f ≠ fd := by
      rintro rfl
      exact hinfo hf
    exact ⟨x, by rw [Kernel.setOpen_opened_of_ne hg]; exact hx, hfile, hwho⟩

/-- A client in no section has no lock on `cache_info`. -/
theorem Inv.not_info_of_locked (hinv : u.Inv s) (hout : Out i s) (hown : Own u i fd o s)
    (hlock : o.lock ≠ none) : ¬ u.IsInfo s.1 o.ino := by
  intro hinfo
  obtain ⟨j, hj⟩ := hinv.locked fd o hown.opened hinfo hlock
  obtain ⟨x, hx, -, -, hwho⟩ := hinv.holds j fd hj
  rw [hown.opened] at hx
  obtain rfl := Option.some.inj hx
  rcases hwho with hsh | ⟨-, hopener⟩
  · exact hown.unshared hsh
  · rw [← hopener, hown.opener] at hj
    exact hout fd hj

/-- The holder of a `PutItem` writes to it. -/
theorem writePutItem_keeps {bytes : List UInt8} (hout : Out i s) (hown : Own u i fd o s)
    (hinfo : info ≠ some fd) (hlock : o.lock = some .exclusive)
    (hclaim : u.accounts = true → ⟨i, fd, o.ino⟩ ∈ s.2.pending) :
    Keeps u may i (call (.write fd bytes)) (fun _ s' => Moved u i fd o info s s') s := by
  intro s1 hrely hinv1
  have hown1 := hown.of_rely hrely
  have hout1 := hout.of_rely hrely
  refine ⟨trivial, fun r w hexec _ => ?_⟩
  have hmoved : ∃ g, u.Move i (.write fd bytes) r s1 (w, g) ∧ Moved u i fd o info s (w, g) := by
    rcases Kernel.exec_write (i := i) hown1.opened hexec with ⟨rfl, hused, rfl⟩ | ⟨rfl, rfl⟩
    · have hsmall : u.accounts = true → itemBytes u.home
          (s1.1.setData o.ino (overwrite (s1.1.data o.ino) o.offset bytes)) < 2 ^ 64 :=
        fun _ => Nat.lt_of_le_of_lt (itemBytes_le_used _ _) hused
      have hfile : ¬ u.IsInfo s1.1 o.ino := by
        refine hinv1.not_info_of_locked hout1 hown1 ?_
        rw [hlock]
        exact Option.some_ne_none _
      have hpending : u.accounts = true → ∃ c ∈ s1.2.pending, c.client = i ∧ c.ino = o.ino :=
        fun hacc => ⟨⟨i, fd, o.ino⟩, (hrely.claims _ rfl).mpr (hclaim hacc), rfl, rfl⟩
      obtain ⟨hinv2, hothers⟩ := Move.fill (overwrite (s1.1.data o.ino) o.offset bytes) hinv1 hfile
        hsmall (.inr hpending)
      have hmove := Move.offset (c := .write fd bytes) (r := some bytes.length) hinv2 hown1.opened
        (.inl ⟨hown1.opener, hown1.unshared⟩) (o.offset + bytes.length) rfl
      refine ⟨s1.2, .after hothers hmove rfl, ?_⟩
      have hstep : Moved u i fd o info s1 _ := moved_setOpen hout1 hown1 hinfo o.ino
        (overwrite (s1.1.data o.ino) o.offset bytes) (o.offset + bytes.length)
      exact ⟨(Leaves.of_rely hout hrely _).trans hstep.leaves, hstep.own,
        fun c hc => (hstep.claims c hc).trans (hrely.claims c hc)⟩
    · exact ⟨s1.2, .same hinv1 rfl, .of_rely hout hown hrely⟩
  obtain ⟨g, hmove, hmoved⟩ := hmoved
  refine ⟨g, hmove.inv, hmove.mark, hmove.others, ?_⟩
  apply keeps_pure
  exact fun s2 hrely2 _ => hmoved.rely hrely2

/-- The holder of a `PutItem` moves in it. -/
theorem seekPutItem_keeps {pos : Nat} (hout : Out i s) (hown : Own u i fd o s) (hinfo : info ≠ some fd) :
    Keeps u may i (call (.seek fd pos)) (fun _ s' => Moved u i fd o info s s') s := by
  intro s1 hrely hinv1
  have hown1 := hown.of_rely hrely
  refine ⟨trivial, fun r w hexec _ => ?_⟩
  have hexec : Kernel.exec i (.seek fd pos) s1.1 = some (r, w) := hexec
  rw [Kernel.exec_seek hown1.opened] at hexec
  obtain ⟨rfl, rfl⟩ := Prod.mk.inj (Option.some.inj hexec)
  have hmove := Move.offset (c := .seek fd pos) (r := true) hinv1 hown1.opened
    (.inl ⟨hown1.opener, hown1.unshared⟩) pos rfl
  refine ⟨s1.2, hmove.inv, hmove.mark, hmove.others, ?_⟩
  apply keeps_pure
  intro s2 hrely2 _
  have hsame : s1.1.setData o.ino (s1.1.data o.ino) = s1.1 := by
    rw [Kernel.setData, Function.update_eq_self]
  have hstep := moved_setOpen (hout.of_rely hrely) hown1 hinfo o.ino (s1.1.data o.ino) pos
  rw [hsame] at hstep
  refine Moved.rely ⟨(Leaves.of_rely hout hrely _).trans hstep.leaves, hstep.own, ?_⟩ hrely2
  exact fun c hc => (hstep.claims c hc).trans (hrely.claims c hc)

end PutItem

end Usage

end Skunk.BesUtils
