import Skunk.BesUtils.DraftMoves
import Skunk.Posix.Later

/-!
# Opening, creating and removing

The calls that change which files and which descriptors there are, and then all calls together: whatever
the rules allow a process keeps everything sound (`Sound.called`), and the kernel answers as the process
reckons.
-/

namespace Skunk.BesUtils

open Effect Posix

variable {dir : Text} {K₀ K K' : Kernel} {hs : Nat → Hand} {i j : Nat} {h' : Hand} {fd : Nat}
  {o : OpenFile}

/-! ## Calls that change no descriptor -/

/-- The files have changed, but nothing that a process has in hand. -/
theorem Sound.frame (hsound : Sound dir K₀ K hs) (hon : Onward dir K K' hs hs)
    (hopened : K'.opened = K.opened) (hst : Stored dir K₀ K' hs) : Sound dir K₀ K' hs where
  toStored := hst
  descs := by
    intro j
    refine (hsound.descs j).frame hsound.wf hon (fun _ _ => by rw [hopened]) ?_
    intro p _ _ g y hy hino
    rw [hopened] at hy
    exact ⟨y, hy, hino⟩

theorem Onward.of_store (hinfo : ∀ ino < K.nextIno, (IsInfoFile dir K' ino ↔ IsInfoFile dir K ino))
    (hfolders : ∀ e ∈ K.folders, e ∈ K'.folders) (hfd : K.nextFd ≤ K'.nextFd) : Onward dir K K' hs hs :=
  ⟨hinfo, hfolders, hfd, fun _ p hp => ⟨p, hp, rfl, rfl⟩, fun _ p hp => .inr ⟨p, hp, rfl, id⟩⟩

/-- `mkdir_p`. -/
theorem Sound.makeFolders (hsound : Sound dir K₀ K hs) (path : Text) :
    Sound dir K₀ (K.makeFolders [] (pieces (cStr path))) hs := by
  have hgrows := Usage.grows_makeFolders K [] (pieces (cStr path))
  have hlater := Kernel.later_makeFolders K [] (pieces (cStr path))
  have hinfo : ∀ ino, IsInfoFile dir (K.makeFolders [] (pieces (cStr path))) ino ↔ IsInfoFile dir K ino := by
    intro ino
    rw [IsInfoFile, IsInfoFile, hgrows.files]
  refine hsound.frame (.of_store (fun ino _ => hinfo ino) hgrows.folders hlater.nextFd) hgrows.opened ?_
  refine ⟨hsound.wf.makeFolders (by simp) fun p hp => Kernel.pieces_cStr hp, ?_, ?_, hsound.distinct, ?_, ?_⟩
  · exact hsound.nextIno.trans hgrows.nextIno
  · intro i p hp
    have hold := hsound.draft i p hp
    refine ⟨Nat.lt_of_lt_of_le hold.lt hgrows.nextIno, hold.new, ?_, ?_, ?_, hold.named, hold.whole⟩
    · rw [hinfo]
      exact hold.notInfo
    · intro e he heq
      rcases hlater.entries e (Kernel.mem_entries_of_folder he) with hmem | hnew
      · rcases List.mem_append.mp hmem with hfile | hfolder
        · -- a location is that of a file or of a folder, not of both
          have hfile' : e ∈ (K.makeFolders [] (pieces (cStr path))).files := by rwa [hgrows.files]
          have hwf : (K.makeFolders [] (pieces (cStr path))).Wf :=
            hsound.wf.makeFolders (by simp) fun p hp => Kernel.pieces_cStr hp
          have hnodup := hwf.inodes
          rw [Kernel.entries, List.map_append] at hnodup
          exact (List.nodup_append.mp hnodup).2.2 e.2 (List.mem_map_of_mem hfile') e.2
            (List.mem_map_of_mem he) rfl
        · exact hold.notFolder e hfolder heq
      · rw [heq] at hnew
        exact absurd hold.lt (Nat.not_lt.mpr hnew)
    · rw [hgrows.data p.ino hold.lt]
      exact hold.data
  · rw [hgrows.files]
    intro e he hnot
    exact hsound.known e he (by rwa [← hinfo])
  · intro ino hlt hnot
    rw [hgrows.data ino (Nat.lt_of_lt_of_le hlt hsound.nextIno)]
    exact hsound.old ino hlt (by rwa [← hinfo])

/-- `remove`, of an item. -/
theorem Sound.dropFile (hsound : Sound dir K₀ K hs) {loc : List Text}
    (hloc : loc ≠ resolve dir ++ [cacheInfoName]) : Sound dir K₀ (K.dropFile loc) hs := by
  have hmem : ∀ e, e ∈ (K.dropFile loc).files ↔ e ∈ K.files ∧ e.1 ≠ loc := by
    intro e
    simp [Kernel.dropFile]
  have hinfo : ∀ ino, IsInfoFile dir (K.dropFile loc) ino ↔ IsInfoFile dir K ino := by
    intro ino
    rw [IsInfoFile, IsInfoFile, hmem]
    exact and_iff_left hloc.symm
  refine hsound.frame (.of_store (fun ino _ => hinfo ino) (fun _ he => he) (Nat.le_refl _)) rfl ?_
  refine ⟨hsound.wf.dropFile loc, hsound.nextIno, ?_, hsound.distinct, ?_, ?_⟩
  · intro i p hp
    have hold := hsound.draft i p hp
    refine ⟨hold.lt, hold.new, ?_, hold.notFolder, hold.data, hold.named, hold.whole⟩
    rw [hinfo]
    exact hold.notInfo
  · intro e he hnot
    exact hsound.known e ((hmem e).mp he).1 (by rwa [← hinfo])
  · intro ino hlt hnot
    exact hsound.old ino hlt (by rwa [← hinfo])

/-! ## One more descriptor -/

theorem Hand.Holds.mem_fds {h : Hand} (hfd : h.Holds fd) : fd ∈ h.fds := by
  rw [Hand.mem_fds]
  rcases hfd with hinfo | ⟨p, hp, hpfd, -⟩ | hreading
  · exact .inl hinfo
  · exact .inr (.inl ⟨p, hp, hpfd⟩)
  · exact .inr (.inr hreading)

/-- What a process has in hand with one more descriptor, which is the next one. -/
structure Adds (dir : Text) (K₀ K K' : Kernel) (hs' : Nat → Hand) (h h' : Hand) (y : OpenFile) : Prop where
  fds : h'.fds.Perm (K.nextFd :: h.fds)
  inside : h'.inside = h.inside
  infos : ∀ g ∈ h'.infos, g ∈ h.infos ∨ g = K.nextFd ∧ IsInfoFile dir K' y.ino
  infos_sub : h.infos ⊆ h'.infos
  drafts : ∀ p ∈ h'.drafts, p ∈ h.drafts ∨ p.fd = K.nextFd ∧ y.ino = p.ino ∧ y.offset = p.offset ∧
    p.stage = .created ∧ h.inside ≠ none ∧ ∀ g x, K.opened g = some x → x.ino ≠ y.ino
  readings : ∀ z ∈ h'.readings, z ∈ h.readings ∨ z.fd = K.nextFd ∧ z.Known dir K₀ K' hs' y

/-- A process keeps up its account of its descriptors when it gets a new one. -/
theorem Descs.add {hs' : Nat → Hand} {h : Hand} {y : OpenFile} (hd : Descs dir K₀ K hs i h) (hwf : K.Wf)
    (hon : Onward dir K K' hs hs') (hself : K'.opened K.nextFd = some y) (hopener : y.opener = i)
    (hothers : ∀ g, g ≠ K.nextFd → K'.opened g = K.opened g) (hnext : K'.nextFd = K.nextFd + 1)
    (hadds : Adds dir K₀ K K' hs' h h' y)
    (hsole : ∀ p ∈ h.drafts, p.stage = .created → p.ino ≠ y.ino) : Descs dir K₀ K' hs' i h' := by
  have hold : ∀ g, g ∈ h.fds → K'.opened g = K.opened g := by
    intro g hg
    apply hothers
    exact Nat.ne_of_lt (hd.lt g hg)
  have hback : ∀ g x, K'.opened g = some x → g = K.nextFd ∧ x = y ∨ g ≠ K.nextFd ∧ K.opened g = some x := by
    intro g x hx
    by_cases hg : g = K.nextFd
    · rw [hg, hself] at hx
      exact .inl ⟨hg, (Option.some.inj hx).symm⟩
    · rw [hothers g hg] at hx
      exact .inr ⟨hg, hx⟩
  have hlt : ∀ g ∈ h'.fds, g = K.nextFd ∨ g ∈ h.fds := fun g hg => List.mem_cons.mp (hadds.fds.mem_iff.mp hg)
  refine ⟨?_, ?_, ?_, ?_, ?_, ?_, ?_, ?_⟩
  · intro g hg
    by_cases hgfd : g = K.nextFd
    · rw [hgfd]
      exact ⟨y, hself, hopener⟩
    · rw [hothers g hgfd]
      apply hd.own
      rcases hg with hinfo | ⟨p, hp, hpfd, hopen⟩ | ⟨z, hz, hzfd⟩
      · exact .inl ((hadds.infos g hinfo).resolve_right fun h => hgfd h.1)
      · exact .inr (.inl ⟨p, (hadds.drafts p hp).resolve_right fun h => hgfd (hpfd.symm.trans h.1), hpfd, hopen⟩)
      · exact .inr (.inr ⟨z, (hadds.readings z hz).resolve_right fun h => hgfd (hzfd.symm.trans h.1), hzfd⟩)
  · intro g hg
    rw [hnext]
    rcases hlt g hg with rfl | hmem
    · exact Nat.lt_succ_self _
    · exact Nat.lt_succ_of_lt (hd.lt g hmem)
  · refine hadds.fds.nodup_iff.mpr (List.nodup_cons.mpr ⟨?_, hd.nodup⟩)
    exact fun hmem => Nat.lt_irrefl _ (hd.lt _ hmem)
  · intro g hg x hx
    rcases hback g x hx with ⟨rfl, rfl⟩ | ⟨hne, hx⟩
    · rcases hadds.infos K.nextFd hg with hmem | ⟨-, hinfo⟩
      · exact absurd (hd.lt K.nextFd (Hand.Holds.mem_fds (.inl hmem))) (Nat.lt_irrefl _)
      · exact hinfo
    · have hmem := (hadds.infos g hg).resolve_right fun h => hne h.1
      exact (hon.info x.ino (hwf.ino_lt g x hx)).mpr (hd.info g hmem x hx)
  · intro f hf
    rw [hadds.inside] at hf
    obtain ⟨hmem, x, hx, hlock⟩ := hd.inside f hf
    exact ⟨hadds.infos_sub hmem, x, by rwa [hold f (Hand.Holds.mem_fds (.inl hmem))], hlock⟩
  · intro p hp hopen
    rcases hadds.drafts p hp with hmem | ⟨hfd, hino, hoffset, hstage, -⟩
    · obtain ⟨x, hx, hrest⟩ := hd.draft p hmem hopen
      exact ⟨x, by rwa [hold p.fd (Hand.Holds.mem_fds (.inr (.inl ⟨p, hmem, rfl, hopen⟩)))], hrest⟩
    · refine ⟨y, by rw [hfd, hself], hino, hoffset, fun hlocked => ?_⟩
      rw [hstage] at hlocked
      cases hlocked
  · intro p hp hstage
    rw [hadds.inside]
    rcases hadds.drafts p hp with hmem | ⟨hfd, hino, -, -, hin, hfresh⟩
    · obtain ⟨hin, honly⟩ := hd.created p hmem hstage
      refine ⟨hin, fun g x hx hxino => ?_⟩
      rcases hback g x hx with ⟨rfl, rfl⟩ | ⟨-, hx⟩
      · exact absurd hxino.symm (hsole p hmem hstage)
      · exact honly g x hx hxino
    · refine ⟨hin, fun g x hx hxino => ?_⟩
      rcases hback g x hx with ⟨rfl, rfl⟩ | ⟨-, hx⟩
      · exact hfd.symm
      · exact absurd (hxino.trans hino.symm) (hfresh g x hx)
  · intro z hz x hx
    rcases hback z.fd x hx with ⟨hfd, rfl⟩ | ⟨hne, hx⟩
    · rcases hadds.readings z hz with hmem | ⟨-, hknown⟩
      · have hlt := hd.lt z.fd (Hand.Holds.mem_fds (.inr (.inr ⟨z, hmem, rfl⟩)))
        rw [hfd] at hlt
        exact absurd hlt (Nat.lt_irrefl _)
      · exact hknown
    · have hmem := (hadds.readings z hz).resolve_right fun h => hne h.1
      have hknown := hd.reading z hmem x hx
      exact hknown.onward (hwf.ino_lt z.fd x hx) hon rfl hknown.locked

/-- The others are left alone. -/
theorem Sound.add {y : OpenFile} (hsound : Sound dir K₀ K hs)
    (hon : Onward dir K K' hs (Function.update hs i h')) (hself : K'.opened K.nextFd = some y)
    (hopener : y.opener = i) (hothers : ∀ g, g ≠ K.nextFd → K'.opened g = K.opened g)
    (hnext : K'.nextFd = K.nextFd + 1) (hadds : Adds dir K₀ K K' (Function.update hs i h') (hs i) h' y)
    (hsole : ∀ j, ∀ p ∈ (hs j).drafts, p.stage = .created → p.ino ≠ y.ino)
    (hst : Stored dir K₀ K' (Function.update hs i h')) : Sound dir K₀ K' (Function.update hs i h') where
  toStored := hst
  descs := by
    intro j
    by_cases hj : j = i
    · subst hj
      rw [Function.update_self]
      exact (hsound.descs j).add hsound.wf hon hself hopener hothers hnext hadds (hsole j)
    · rw [Function.update_of_ne hj]
      refine (hsound.descs j).frame hsound.wf hon ?_ ?_
      · intro g hg
        apply hothers
        exact Nat.ne_of_lt ((hsound.descs j).lt g hg.mem_fds)
      · intro p hp hstage g x hx hino
        by_cases hg : g = K.nextFd
        · rw [hg, hself] at hx
          obtain rfl := Option.some.inj hx
          exact absurd hino.symm (hsole j p hp hstage)
        · rw [hothers g hg] at hx
          exact ⟨x, hx, hino⟩

theorem fds_info (h : Hand) (fd : Nat) : ({ h with infos := fd :: h.infos } : Hand).fds.Perm (fd :: h.fds) :=
  List.Perm.refl _

theorem fds_drafting (h : Hand) (p : Draft) : (h.drafting p).fds.Perm (p.fd :: h.fds) := by
  simp only [Hand.fds, Hand.drafting, List.map_cons, List.append_assoc]
  exact List.perm_middle

theorem fds_reading (h : Hand) (y : Reading) : (h.reading y).fds.Perm (y.fd :: h.fds) := by
  simp only [Hand.fds, Hand.reading, List.map_cons]
  exact List.perm_middle

/-! ## Opening -/

theorem sameStore_addOpen (hwf : K.Wf) (i : Nat) {n : Nat} (hn : n < K.nextIno) :
    SameStore K (K.addOpen i n) :=
  ⟨hwf.addOpen i hn, List.Perm.refl _, rfl, rfl, Nat.le_succ _⟩

/-- A descriptor for `cache_info` is opened. -/
theorem Sound.openInfo (hsound : Sound dir K₀ K hs) {n : Nat} (hn : IsInfoFile dir K n) :
    Sound dir K₀ (K.addOpen i n)
      (Function.update hs i { hs i with infos := K.nextFd :: (hs i).infos }) := by
  have hlt : n < K.nextIno := hsound.wf.entry_lt _ (Kernel.mem_entries_of_file hn)
  have hsame := sameStore_addOpen hsound.wf i hlt
  have hrev : Redrafted (hs i) { hs i with infos := K.nextFd :: (hs i).infos } id :=
    .of_eq rfl fun _ hs => hs
  refine hsound.add (hrev.onward hsame) Kernel.addOpen_opened_self rfl
    (fun g hg => Kernel.addOpen_opened_of_ne hg) rfl ?_ ?_ ?_
  · refine ⟨fds_info (hs i) K.nextFd, rfl, ?_, List.subset_cons_self _ _, fun p hp => .inl hp,
      fun z hz => .inl hz⟩
    intro g hg
    rcases List.mem_cons.mp hg with rfl | hg
    · exact .inr ⟨rfl, hn⟩
    · exact .inl hg
  · rintro j p hp - rfl
    exact (hsound.draft j p hp).notInfo hn
  · exact hsound.toStored.revise hrev hsame (hsound.toStored.written rfl fun _ _ => rfl)
      fun p hp => (hsound.draft i p hp).whole

/-- A file or folder that is not `cache_info` is opened. -/
theorem Sound.openReading (hsound : Sound dir K₀ K hs) (hbusy : (hs i).Busy) {path key : Text} {n : Nat}
    (hkey : IsKey key) (hpath : path = pathConcat dir key)
    (hn : (resolve dir ++ [key], n) ∈ K.entries) :
    Sound dir K₀ (K.addOpen i n)
      (Function.update hs i ((hs i).reading ⟨K.nextFd, path, (hs i).op⟩)) := by
  have hlt : n < K.nextIno := hsound.wf.entry_lt _ hn
  have hsame := sameStore_addOpen hsound.wf i hlt
  have hrev : Redrafted (hs i) ((hs i).reading ⟨K.nextFd, path, (hs i).op⟩) id := .of_eq rfl fun _ hs => hs
  have hnotInfo : ¬ IsInfoFile dir K n := by
    intro hinfo
    have heq := hsound.wf.eq_of_ino hn (Kernel.mem_entries_of_file hinfo) rfl
    apply hkey.2
    simpa using congrArg Prod.fst heq
  refine hsound.add (hrev.onward hsame) Kernel.addOpen_opened_self rfl
    (fun g hg => Kernel.addOpen_opened_of_ne hg) rfl ?_ ?_ ?_
  · refine ⟨fds_reading (hs i) _, rfl, fun g hg => .inl hg, fun _ hg => hg, fun p hp => .inl hp, ?_⟩
    intro z hz
    rcases List.mem_cons.mp hz with rfl | hz
    · refine .inr ⟨rfl, hnotInfo, ?_, fun hlock => absurd rfl hlock⟩
      rcases List.mem_append.mp hn with hfile | hfolder
      · by_cases hold : n < K₀.nextIno
        · exact .inl hold
        · obtain ⟨j, p, hp, hino, hloc⟩ := hsound.known _ hfile hnotInfo (Nat.not_lt.mp hold)
          obtain ⟨q, hq, hqino, hqpath, -⟩ := hrev.exists_draft hp
          refine .inr (.inr ⟨j, q, hq, hqino.trans hino, ?_⟩)
          rw [hqpath, hloc]
          show resolve dir ++ [key] = resolve path
          rw [hpath, resolve_pathConcat dir hkey.1]
      · exact .inr (.inl ⟨_, hfolder, rfl⟩)
    · exact .inl hz
  · exact fun j p hp hstage => absurd hstage (hsound.settled_of_busy hbusy j hp)
  · exact hsound.toStored.revise hrev hsame (hsound.toStored.written rfl fun _ _ => rfl)
      fun p hp => (hsound.draft i p hp).whole

/-! ## Creating -/

theorem isInfo_addFile {loc : List Text} {ino : Nat} (hlt : ino < K.nextIno) :
    IsInfoFile dir (K.addFile i loc) ino ↔ IsInfoFile dir K ino := by
  rw [IsInfoFile, IsInfoFile, Kernel.addFile_files, List.mem_cons]
  refine or_iff_right ?_
  intro heq
  rw [(Prod.mk.inj heq).2] at hlt
  exact Nat.lt_irrefl _ hlt

/-- What is created leaves the files that there were as they are. -/
theorem Draft.Stored.addFile {p : Draft} {sources : List Asked}
    (hp : p.Stored dir K₀ K sources) (i : Nat) (loc : List Text) :
    p.Stored dir K₀ (K.addFile i loc) sources where
  lt := Nat.lt_succ_of_lt hp.lt
  new := hp.new
  notInfo := by
    rw [isInfo_addFile hp.lt]
    exact hp.notInfo
  notFolder := hp.notFolder
  data := by
    rw [Kernel.addFile_data_of_ne (Nat.ne_of_lt hp.lt)]
    exact hp.data
  named := hp.named
  whole := hp.whole

theorem Stored.old_addFile (hst : Stored dir K₀ K hs) {loc : List Text} {ino : Nat}
    (hlt : ino < K₀.nextIno) (hinfo : ¬ IsInfoFile dir (K.addFile i loc) ino) :
    (K.addFile i loc).data ino = K₀.data ino := by
  have hlt' := Nat.lt_of_lt_of_le hlt hst.nextIno
  rw [isInfo_addFile hlt'] at hinfo
  rw [Kernel.addFile_data_of_ne (Nat.ne_of_lt hlt')]
  exact hst.old ino hlt hinfo

/-- `cache_info` is created. -/
theorem Sound.createInfo (hsound : Sound dir K₀ K hs)
    (hwf : (K.addFile i (resolve dir ++ [cacheInfoName])).Wf) :
    Sound dir K₀ (K.addFile i (resolve dir ++ [cacheInfoName]))
      (Function.update hs i { hs i with infos := K.nextFd :: (hs i).infos }) := by
  have hrev : Redrafted (hs i) { hs i with infos := K.nextFd :: (hs i).infos } id :=
    .of_eq rfl fun _ hs => hs
  have hmem : ∀ j, ∀ p ∈ (Function.update hs i { hs i with infos := K.nextFd :: (hs i).infos } j).drafts,
      p ∈ (hs j).drafts := by
    intro j p hp
    rcases hrev.mem_drafts hp with ⟨rfl, q, hq, rfl⟩ | ⟨-, hp⟩
    · exact hq
    · exact hp
  have hinfo : IsInfoFile dir (K.addFile i (resolve dir ++ [cacheInfoName])) K.nextIno :=
    List.mem_cons_self
  have hon : Onward dir K (K.addFile i (resolve dir ++ [cacheInfoName])) hs
      (Function.update hs i { hs i with infos := K.nextFd :: (hs i).infos }) := by
    refine ⟨fun ino hlt => isInfo_addFile hlt, fun _ he => he, Nat.le_succ _, ?_, ?_⟩
    · intro j p hp
      obtain ⟨q, hq, hino, hpath, -⟩ := hrev.exists_draft hp
      exact ⟨q, hq, hino, hpath⟩
    · exact fun j p hp => .inr ⟨p, hmem j p hp, rfl, id⟩
  refine hsound.add hon Kernel.addFile_opened_self rfl (fun g hg => Kernel.addFile_opened_of_ne hg) rfl
    ?_ ?_ ?_
  · refine ⟨fds_info (hs i) K.nextFd, rfl, ?_, List.subset_cons_self _ _, fun p hp => .inl hp,
      fun z hz => .inl hz⟩
    intro g hg
    rcases List.mem_cons.mp hg with rfl | hg
    · exact .inr ⟨rfl, hinfo⟩
    · exact .inl hg
  · exact fun j p hp _ => Nat.ne_of_lt (hsound.draft j p hp).lt
  · refine ⟨hwf, hsound.nextIno.trans (Nat.le_succ _), ?_, ?_, ?_, fun ino => hsound.toStored.old_addFile⟩
    · intro j p hp
      have hold := (hsound.draft j p (hmem j p hp)).addFile i (resolve dir ++ [cacheInfoName])
      by_cases hj : j = i
      · subst hj
        rwa [Function.update_self]
      · rwa [Function.update_of_ne hj]
    · exact fun j k p hp q hq => hsound.distinct j k p (hmem j p hp) q (hmem k q hq)
    · intro e he hnot hnew
      rcases List.mem_cons.mp he with rfl | he
      · exact absurd hinfo hnot
      · have hlt := hsound.wf.entry_lt e (Kernel.mem_entries_of_file he)
        rw [isInfo_addFile hlt] at hnot
        obtain ⟨j, p, hp, hino, hloc⟩ := hsound.known e he hnot hnew
        obtain ⟨q, hq, hqino, hqpath, -⟩ := hrev.exists_draft hp
        exact ⟨j, q, hq, hqino.trans hino, by rw [hqpath, hloc]⟩

/-- A file is created for a key. -/
theorem Sound.createDraft (hsound : Sound dir K₀ K hs) (hbusy : (hs i).Busy) {path key : Text}
    (hkey : IsKey key) (hpath : path = pathConcat dir key)
    (hop : (hs i).op.bind CacheOp.puts = some key) (hwf : (K.addFile i (resolve dir ++ [key])).Wf) :
    Sound dir K₀ (K.addFile i (resolve dir ++ [key]))
      (Function.update hs i
        ((hs i).drafting ⟨K.nextFd, K.nextIno, path, (hs i).op, (hs i).turn, [], 0, .created, false⟩)) := by
  let p₀ : Draft := ⟨K.nextFd, K.nextIno, path, (hs i).op, (hs i).turn, [], 0, .created, false⟩
  have hmem : ∀ j, ∀ p ∈ (Function.update hs i ((hs i).drafting p₀) j).drafts,
      j = i ∧ p = p₀ ∨ p ∈ (hs j).drafts := by
    intro j p hp
    by_cases hj : j = i
    · subst hj
      rw [Function.update_self] at hp
      rcases List.mem_cons.mp hp with rfl | hp
      · exact .inl ⟨rfl, rfl⟩
      · exact .inr hp
    · rw [Function.update_of_ne hj] at hp
      exact .inr hp
  have hkept : ∀ j, ∀ p ∈ (hs j).drafts,
      p ∈ (Function.update hs i ((hs i).drafting p₀) j).drafts := by
    intro j p hp
    by_cases hj : j = i
    · subst hj
      rw [Function.update_self]
      exact List.mem_cons_of_mem _ hp
    · rwa [Function.update_of_ne hj]
  have hon : Onward dir K (K.addFile i (resolve dir ++ [key])) hs
      (Function.update hs i ((hs i).drafting p₀)) := by
    refine ⟨fun ino hlt => isInfo_addFile hlt, fun _ he => he, Nat.le_succ _,
      fun j p hp => ⟨p, hkept j p hp, rfl, rfl⟩, ?_⟩
    intro j p hp
    rcases hmem j p hp with ⟨-, rfl⟩ | hp
    · exact .inl (Nat.le_refl _)
    · exact .inr ⟨p, hp, rfl, id⟩
  have hnotInfo : ¬ IsInfoFile dir (K.addFile i (resolve dir ++ [key])) K.nextIno := by
    intro hinfo
    rcases List.mem_cons.mp hinfo with heq | hinfo
    · apply hkey.2
      simpa using (Prod.mk.inj heq).1.symm
    · exact Nat.lt_irrefl _ (hsound.wf.entry_lt _ (Kernel.mem_entries_of_file hinfo))
  refine hsound.add hon Kernel.addFile_opened_self rfl (fun g hg => Kernel.addFile_opened_of_ne hg) rfl
    ?_ ?_ ?_
  · refine ⟨fds_drafting (hs i) p₀, rfl, fun g hg => .inl hg, fun _ hg => hg, ?_, fun z hz => .inl hz⟩
    intro p hp
    rcases List.mem_cons.mp hp with rfl | hp
    · refine .inr ⟨rfl, rfl, rfl, rfl, hbusy.1, fun g x hx => ?_⟩
      exact Nat.ne_of_lt (hsound.wf.ino_lt g x hx)
    · exact .inl hp
  · exact fun j p hp _ => Nat.ne_of_lt (hsound.draft j p hp).lt
  · refine ⟨hwf, hsound.nextIno.trans (Nat.le_succ _), ?_, ?_, ?_, fun ino => hsound.toStored.old_addFile⟩
    · intro j p hp
      have hsources : (Function.update hs i ((hs i).drafting p₀) j).sources = (hs j).sources := by
        by_cases hj : j = i
        · subst hj
          rw [Function.update_self]
          rfl
        · rw [Function.update_of_ne hj]
      rw [hsources]
      rcases hmem j p hp with ⟨rfl, rfl⟩ | hp
      · refine ⟨Nat.lt_succ_self _, hsound.nextIno, hnotInfo, ?_, Kernel.addFile_data_self, ⟨key, hkey, hpath, hop⟩,
          nofun⟩
        intro e he
        exact Nat.ne_of_lt (hsound.wf.entry_lt e (Kernel.mem_entries_of_folder he))
      · exact (hsound.draft j p hp).addFile i (resolve dir ++ [key])
    · intro j k p hp q hq hino
      rcases hmem j p hp with ⟨rfl, rfl⟩ | hp'
      · rcases hmem k q hq with ⟨rfl, rfl⟩ | hq'
        · exact ⟨rfl, rfl⟩
        · exact absurd hino.symm (Nat.ne_of_lt (hsound.draft k q hq').lt)
      · rcases hmem k q hq with ⟨rfl, rfl⟩ | hq'
        · exact absurd hino (Nat.ne_of_lt (hsound.draft j p hp').lt)
        · exact hsound.distinct j k p hp' q hq' hino
    · intro e he hnot hnew
      rcases List.mem_cons.mp he with rfl | he
      · refine ⟨i, p₀, ?_, rfl, ?_⟩
        · rw [Function.update_self]
          exact List.mem_cons_self
        · show resolve path = resolve dir ++ [key]
          rw [hpath, resolve_pathConcat dir hkey.1]
      · have hlt := hsound.wf.entry_lt e (Kernel.mem_entries_of_file he)
        rw [isInfo_addFile hlt] at hnot
        obtain ⟨j, p, hp, hrest⟩ := hsound.known e he hnot hnew
        exact ⟨j, p, hkept j p hp, hrest⟩

/-! ## All calls -/

section Called

variable (hsound : Sound dir K₀ K hs)
include hsound

theorem Sound.unchanged : Sound dir K₀ K (Function.update hs i (hs i)) := by
  rw [Function.update_eq_self]
  exact hsound

theorem Sound.next_notMem : K.nextFd ∉ (hs i).fds :=
  fun hmem => Nat.lt_irrefl _ ((hsound.descs i).lt _ hmem)

theorem Sound.create_called (hdir : '\x00' ∉ dir) {path : Text} {r : Option Nat}
    (hok : (hs i).Ok dir (.create path)) (hexec : Kernel.exec i (.create path) K = some (r, K')) :
    (hs i).Expects (.create path) r ∧
      Sound dir K₀ K' (Function.update hs i ((hs i).next dir K (.create path) r)) := by
  rcases Kernel.exec_create hexec with ⟨rfl, rfl⟩ | ⟨loc, hloc, hnew, rfl, rfl⟩
  · exact ⟨trivial, hsound.unchanged⟩
  · refine ⟨hsound.next_notMem, ?_⟩
    have hwf := hsound.wf.addFile i hnew (Kernel.locate_names hloc)
    rcases hok with rfl | ⟨hbusy, key, hkey, rfl, hop⟩
    · obtain rfl := locate_pathConcat hdir isFileName_cacheInfoName hloc
      have hnext : (hs i).next dir K (.create (infoPath dir)) (some K.nextFd) =
          { hs i with infos := K.nextFd :: (hs i).infos } := if_pos rfl
      rw [hnext]
      exact hsound.createInfo hwf
    · obtain rfl := locate_pathConcat hdir hkey.1 hloc
      have hnext : (hs i).next dir K (.create (pathConcat dir key)) (some K.nextFd) = (hs i).drafting
          ⟨K.nextFd, K.nextIno, pathConcat dir key, (hs i).op, (hs i).turn, [], 0, .created, false⟩ :=
        if_neg (isKey_ne hkey)
      rw [hnext]
      exact hsound.createDraft hbusy hkey rfl hop hwf

theorem Sound.openRead_called (hdir : '\x00' ∉ dir) {path : Text} {r : Option Nat}
    (hok : (hs i).Ok dir (.openRead path)) (hexec : Kernel.exec i (.openRead path) K = some (r, K')) :
    (hs i).Expects (.openRead path) r ∧
      Sound dir K₀ K' (Function.update hs i ((hs i).next dir K (.openRead path) r)) := by
  rcases Kernel.exec_openRead hexec with ⟨-, rfl, rfl⟩ | ⟨n, hn, rfl, rfl⟩
  · exact ⟨trivial, hsound.unchanged⟩
  · refine ⟨hsound.next_notMem, ?_⟩
    obtain ⟨hbusy, key, hkey, rfl, -⟩ := hok
    obtain ⟨loc, hloc, hlook⟩ := Option.bind_eq_some_iff.mp hn
    obtain rfl := locate_pathConcat hdir hkey.1 hloc
    exact hsound.openReading hbusy hkey rfl (hsound.wf.lookup_entries.mp hlook)

theorem Sound.openWrite_called (hdir : '\x00' ∉ dir) {path : Text} {r : Option Nat}
    (hok : (hs i).Ok dir (.openWrite path)) (hexec : Kernel.exec i (.openWrite path) K = some (r, K')) :
    (hs i).Expects (.openWrite path) r ∧
      Sound dir K₀ K' (Function.update hs i ((hs i).next dir K (.openWrite path) r)) := by
  rcases Kernel.exec_openWrite hexec with ⟨-, rfl, rfl⟩ | ⟨n, hn, rfl, rfl⟩
  · exact ⟨trivial, hsound.unchanged⟩
  · refine ⟨hsound.next_notMem, ?_⟩
    obtain ⟨loc, hloc, hlook⟩ := Option.bind_eq_some_iff.mp hn
    have hfile := hsound.wf.lookup_files.mp hlook
    rcases hok with rfl | ⟨hbusy, key, hkey, rfl⟩
    · obtain rfl := locate_pathConcat hdir isFileName_cacheInfoName hloc
      have hnext : (hs i).next dir K (.openWrite (infoPath dir)) (some K.nextFd) =
          { hs i with infos := K.nextFd :: (hs i).infos } := if_pos rfl
      rw [hnext]
      exact hsound.openInfo hfile
    · obtain rfl := locate_pathConcat hdir hkey.1 hloc
      have hnext : (hs i).next dir K (.openWrite (pathConcat dir key)) (some K.nextFd) =
          (hs i).reading ⟨K.nextFd, pathConcat dir key, (hs i).op⟩ := if_neg (isKey_ne hkey)
      rw [hnext]
      exact hsound.openReading hbusy hkey rfl (Kernel.mem_entries_of_file hfile)

/-- All accounts stay right when a lock is granted or refused. -/
theorem Sound.flock_called {mode : FlockMode} {nonblock r : Bool}
    (hok : (hs i).Ok dir (.flock fd mode nonblock))
    (hexec : Kernel.exec i (.flock fd mode nonblock) K = some (r, K')) :
    (hs i).Expects (.flock fd mode nonblock) r ∧
      Sound dir K₀ K' (Function.update hs i ((hs i).next dir K (.flock fd mode nonblock) r)) := by
  have hd := hsound.descs i
  have hwf := hsound.wf.exec hexec
  have hholds : (hs i).Holds fd := by
    rcases hok with ⟨hfd, -⟩ | ⟨p, hp, hpfd, hstage, -⟩ | ⟨-, hy, -⟩
    · exact .inl hfd
    · exact .inr (.inl ⟨p, hp, hpfd, by rw [hstage]; exact nofun⟩)
    · exact .inr (.inr hy)
  obtain ⟨o, ho, -⟩ := hd.own fd hholds
  rcases Kernel.exec_flock ho hexec with ⟨rfl, hgrants, rfl⟩ | ⟨rfl, rfl, rfl⟩
  · refine ⟨by cases nonblock <;> trivial, ?_⟩
    rcases hok with ⟨hfd, rfl, -, hout⟩ | ⟨p, hp, rfl, hstage, rfl, -⟩ | ⟨hbusy, ⟨y, hy, rfl⟩, -⟩
    · have hnext : (hs i).next dir K (.flock fd .exclusive nonblock) true =
          { hs i with inside := some fd } := if_pos hfd
      rw [hnext]
      exact hsound.relockInfo hfd ho hwf (hsound.settled_of_outside hout) (.inl ⟨rfl, rfl⟩)
    · have hnext : (hs i).next dir K (.flock p.fd .exclusive nonblock) true =
          (hs i).edit p.fd fun p => { p with stage := .locked } := if_neg (hd.fd_of_draft hp).1
      rw [hnext]
      exact hsound.lockDraft hp hstage ho hwf
    · have hinfo : y.fd ∉ (hs i).infos := fun hmem => (hd.fd_of_info hmem).2 y hy rfl
      have hnext : (hs i).next dir K (.flock y.fd mode nonblock) true = hs i :=
        (if_neg hinfo).trans (Hand.edit_eq_self (Hand.ne_of_reading hd.nodup hy))
      rw [hnext, Function.update_eq_self]
      exact hsound.lockReading hy hbusy ho hgrants hwf
  · exact ⟨trivial, hsound.unchanged⟩

/-- A file that is moved in or written to is open. -/
theorem Sound.opened_of_moves (hok : fd ∈ (hs i).infos ∨ ∃ p ∈ (hs i).drafts, p.fd = fd ∧ p.stage = .locked) :
    ∃ o, K.opened fd = some o := by
  have hholds : (hs i).Holds fd := by
    rcases hok with hfd | ⟨p, hp, hpfd, hstage⟩
    · exact .inl hfd
    · exact .inr (.inl ⟨p, hp, hpfd, by rw [hstage]; exact nofun⟩)
  obtain ⟨o, ho, -⟩ := (hsound.descs i).own fd hholds
  exact ⟨o, ho⟩

/-- What is written comes into the draft and into the file alike. -/
theorem Sound.write_called {bytes : List UInt8} {r : Option Nat} (hok : (hs i).Ok dir (.write fd bytes))
    (hexec : Kernel.exec i (.write fd bytes) K = some (r, K')) :
    (hs i).Expects (.write fd bytes) r ∧
      Sound dir K₀ K' (Function.update hs i ((hs i).next dir K (.write fd bytes) r)) := by
  obtain ⟨o, ho⟩ := hsound.opened_of_moves hok
  rcases Kernel.exec_write ho hexec with ⟨rfl, -, rfl⟩ | ⟨rfl, hK⟩
  · refine ⟨rfl, ?_⟩
    refine hsound.move (g := fun p => { p with
      bytes := overwrite p.bytes p.offset bytes
      offset := p.offset + bytes.length }) (fun _ => ⟨rfl, rfl, rfl, rfl⟩) (fun _ => rfl) hok ho _ _ ?_
    intro p _ _ hdata hoffset
    rw [hdata, hoffset]
    exact ⟨rfl, rfl⟩
  · refine ⟨trivial, ?_⟩
    rw [hK]
    have hmove := hsound.move (g := fun p => { p with failed := true }) (fun _ => ⟨rfl, rfl, rfl, rfl⟩)
      (fun _ => rfl) hok ho o.offset (K.data o.ino) fun p _ _ hdata hoffset => ⟨hoffset.symm, hdata.symm⟩
    have hsame : (K.setData o.ino (K.data o.ino)).setOpen fd (some { o with offset := o.offset }) = K := by
      rw [setData_self]
      show { K with opened := Function.update K.opened fd (some o) } = K
      rw [← ho, Function.update_eq_self]
    rw [hsame] at hmove
    exact hmove

theorem Sound.seek_called {pos : Nat} {r : Bool} (hok : (hs i).Ok dir (.seek fd pos))
    (hexec : Kernel.exec i (.seek fd pos) K = some (r, K')) :
    Sound dir K₀ K' (Function.update hs i ((hs i).next dir K (.seek fd pos) r)) := by
  obtain ⟨o, ho⟩ := hsound.opened_of_moves hok
  rw [Kernel.exec_seek ho] at hexec
  obtain ⟨rfl, rfl⟩ := Prod.mk.inj (Option.some.inj hexec)
  have hmove := hsound.move (g := fun p => { p with offset := pos }) (fun _ => ⟨rfl, rfl, rfl, rfl⟩)
    (fun _ => rfl) hok ho pos (K.data o.ino) fun p _ _ hdata _ => ⟨rfl, hdata.symm⟩
  rw [setData_self] at hmove
  exact hmove

theorem Sound.read_called {count : Nat} {r : Option (List UInt8)} (hok : (hs i).Ok dir (.read fd count))
    (hexec : Kernel.exec i (.read fd count) K = some (r, K')) :
    Sound dir K₀ K' (Function.update hs i ((hs i).next dir K (.read fd count) r)) := by
  have hfd : fd ∈ (hs i).infos := hok
  obtain ⟨o, ho⟩ := hsound.opened_of_moves (.inl hfd)
  rw [Kernel.exec_read ho] at hexec
  obtain ⟨rfl, rfl⟩ := Prod.mk.inj (Option.some.inj hexec)
  have hmove := hsound.move (g := id) (fun _ => ⟨rfl, rfl, rfl, rfl⟩) (fun _ => rfl) (.inl hfd) ho
    (o.offset + (((K.data o.ino).drop o.offset).take count).length) (K.data o.ino)
    fun p hp hpfd => absurd hpfd (((hsound.descs i).fd_of_info hfd).1 p hp)
  rw [setData_self, Hand.edit_eq_self ((hsound.descs i).fd_of_info hfd).1] at hmove
  exact hmove

/-- Every call that the rules allow keeps everything sound, and is answered as the process reckons. -/
theorem Sound.called (hdir : '\x00' ∉ dir) {c : SysCall} {r : c.Reply} (hok : (hs i).Ok dir c)
    (hexec : Kernel.exec i c K = some (r, K')) :
    (hs i).Expects c r ∧ Sound dir K₀ K' (Function.update hs i ((hs i).next dir K c r)) := by
  have hquiet : SameStore K K := ⟨hsound.wf, List.Perm.refl _, rfl, rfl, Nat.le_refl _⟩
  cases c with
  | stat | fstat | subtract =>
      obtain ⟨rfl, rfl⟩ := Prod.mk.inj (Option.some.inj hexec)
      exact ⟨trivial, hsound.unchanged⟩
  | readdir path =>
      obtain ⟨rfl, rfl⟩ := Prod.mk.inj (Option.some.inj hexec)
      refine ⟨?_, hsound.unchanged⟩
      cases hnames : (K.locate path).bind fun loc =>
          if K.isFolder loc then some (['.'] :: ['.', '.'] :: K.listing loc) else none with
      | none => trivial
      | some names =>
          obtain ⟨loc, -, hlist⟩ := Option.bind_eq_some_iff.mp hnames
          split at hlist
          · obtain rfl := Option.some.inj hlist
            intro n hn
            rcases List.mem_cons.mp hn with rfl | hn
            · exact .inl rfl
            rcases List.mem_cons.mp hn with rfl | hn
            · exact .inr (.inl rfl)
            · obtain ⟨ino, hmem⟩ := Kernel.mem_listing.mp hn
              refine .inr (.inr (hsound.wf.names _ hmem n ?_))
              exact List.mem_append_right _ List.mem_cons_self
          · cases hlist
  | source fileName =>
      obtain ⟨rfl, rfl⟩ := Prod.mk.inj (Option.some.inj hexec)
      exact ⟨trivial, hsound.quiet hquiet rfl rfl rfl rfl rfl rfl (List.subset_cons_self _ _)⟩
  | mkdirP path =>
      obtain ⟨rfl, rfl⟩ := Prod.mk.inj (Option.some.inj hexec)
      exact ⟨trivial, (hsound.makeFolders path).unchanged⟩
  | create path => exact hsound.create_called hdir hok hexec
  | openRead path => exact hsound.openRead_called hdir hok hexec
  | openWrite path => exact hsound.openWrite_called hdir hok hexec
  | close fd =>
      obtain ⟨rfl, rfl⟩ := Prod.mk.inj (Option.some.inj hexec)
      exact ⟨trivial, hsound.close hok _⟩
  | flock fd mode nonblock => exact hsound.flock_called hok hexec
  | unlock fd =>
      obtain ⟨hinside, hsettled⟩ := hok
      obtain ⟨hfd, o, ho, -⟩ := (hsound.descs i).inside fd hinside
      have hwf := hsound.wf.exec hexec
      rw [Kernel.exec_unlock ho] at hexec
      obtain ⟨rfl, rfl⟩ := Prod.mk.inj (Option.some.inj hexec)
      exact ⟨trivial, hsound.relockInfo hfd ho hwf hsettled (.inr rfl)⟩
  | futimes fd =>
      refine ⟨trivial, ?_⟩
      rw [Kernel.exec] at hexec
      split at hexec
      · obtain ⟨rfl, rfl⟩ := Prod.mk.inj (Option.some.inj hexec)
        exact hsound.unchanged
      · obtain ⟨rfl, rfl⟩ := Prod.mk.inj (Option.some.inj hexec)
        exact hsound.quiet ⟨{ hsound.wf with }, List.Perm.refl _, rfl, rfl, Nat.le_refl _⟩ rfl rfl rfl rfl
          rfl rfl fun _ hs => hs
  | seek fd pos => exact ⟨trivial, hsound.seek_called hok hexec⟩
  | read fd count => exact ⟨trivial, hsound.read_called hok hexec⟩
  | write fd bytes => exact hsound.write_called hok hexec
  | remove path =>
      refine ⟨trivial, ?_⟩
      rcases Kernel.exec_remove hexec with ⟨-, rfl⟩ | ⟨loc, n, hloc, -, -, rfl⟩
      · exact hsound.unchanged
      · obtain ⟨-, key, hkey, rfl⟩ := hok
        obtain rfl := locate_pathConcat hdir hkey.1 hloc
        refine (hsound.dropFile ?_).unchanged
        intro heq
        apply hkey.2
        simpa using heq

end Called

end Skunk.BesUtils
