import Skunk.BesUtils.CacheMoves
import Skunk.BesUtils.Drafts

/-!
# What all processes have in hand, and the files

How the files of a cache go with what its processes have in hand. A file that a process has created holds
what the process has written into it, from the moment when it is created and for ever after it has been
closed, and every file in the directory that was not there in the beginning has been created by somebody
(`Stored`). What the descriptors are for is said one process at a time (`Descs`): the lock of the cache and
those of the files keep everybody from a file that is not finished.
-/

namespace Skunk.BesUtils

open Effect Posix

/-- A file that a process has created. -/
structure Draft.Stored (p : Draft) (dir : Text) (K₀ K : Kernel) (sources : List Asked) : Prop where
  lt : p.ino < K.nextIno
  new : K₀.nextIno ≤ p.ino
  notInfo : ¬ IsInfoFile dir K p.ino
  notFolder : ∀ e ∈ K.folders, e.2 ≠ p.ino
  data : K.data p.ino = p.bytes
  named : ∃ key, IsKey key ∧ p.path = pathConcat dir key ∧ p.op.bind CacheOp.puts = some key
  whole : p.stage = .closed → p.Whole sources

/-- The files, since the kernel was `K₀`. -/
structure Stored (dir : Text) (K₀ K : Kernel) (hs : Nat → Hand) : Prop where
  wf : K.Wf
  nextIno : K₀.nextIno ≤ K.nextIno
  draft : ∀ i, ∀ p ∈ (hs i).drafts, p.Stored dir K₀ K (hs i).sources
  distinct : ∀ i j, ∀ p ∈ (hs i).drafts, ∀ q ∈ (hs j).drafts, p.ino = q.ino → i = j ∧ p = q
  known : ∀ e ∈ K.files, ¬ IsInfoFile dir K e.2 → K₀.nextIno ≤ e.2 →
    ∃ i, ∃ p ∈ (hs i).drafts, p.ino = e.2 ∧ resolve p.path = e.1
  old : ∀ ino < K₀.nextIno, ¬ IsInfoFile dir K ino → K.data ino = K₀.data ino

/-- What a file is that was there when it was opened. -/
structure Reading.Known (x : Reading) (dir : Text) (K₀ K : Kernel) (hs : Nat → Hand) (o : OpenFile) :
    Prop where
  notInfo : ¬ IsInfoFile dir K o.ino
  known : o.ino < K₀.nextIno ∨ (∃ e ∈ K.folders, e.2 = o.ino) ∨
    ∃ i, ∃ p ∈ (hs i).drafts, p.ino = o.ino ∧ resolve p.path = resolve x.path
  locked : o.lock ≠ none → ∀ i, ∀ p ∈ (hs i).drafts, p.ino = o.ino → p.stage = .closed

/-- The descriptor is open, as far as the process knows. -/
def Hand.Holds (h : Hand) (fd : Nat) : Prop :=
  fd ∈ h.infos ∨ (∃ p ∈ h.drafts, p.fd = fd ∧ p.stage ≠ .closed) ∨ ∃ x ∈ h.readings, x.fd = fd

/-- The descriptors of process `i`. -/
structure Descs (dir : Text) (K₀ K : Kernel) (hs : Nat → Hand) (i : Nat) (h : Hand) : Prop where
  own : ∀ fd, h.Holds fd → ∃ o, K.opened fd = some o ∧ o.opener = i
  lt : ∀ fd ∈ h.fds, fd < K.nextFd
  nodup : h.fds.Nodup
  info : ∀ fd ∈ h.infos, ∀ o, K.opened fd = some o → IsInfoFile dir K o.ino
  inside : ∀ f, h.inside = some f → f ∈ h.infos ∧ ∃ o, K.opened f = some o ∧ o.lock = some .exclusive
  draft : ∀ p ∈ h.drafts, p.stage ≠ .closed → ∃ o, K.opened p.fd = some o ∧ o.ino = p.ino ∧
    o.offset = p.offset ∧ (p.stage = .locked → o.lock = some .exclusive)
  created : ∀ p ∈ h.drafts, p.stage = .created → h.inside ≠ none ∧
    ∀ fd o, K.opened fd = some o → o.ino = p.ino → fd = p.fd
  reading : ∀ x ∈ h.readings, ∀ o, K.opened x.fd = some o → x.Known dir K₀ K hs o

/-- Everything goes with what the processes have in hand. -/
structure Sound (dir : Text) (K₀ K : Kernel) (hs : Nat → Hand) : Prop extends Stored dir K₀ K hs where
  descs : ∀ i, Descs dir K₀ K hs i (hs i)

section Facts

variable {dir : Text} {K₀ K K' : Kernel} {hs hs' : Nat → Hand} {i j : Nat} {h : Hand}

theorem Draft.Whole.mono {p : Draft} {sources sources' : List Asked}
    (hp : p.Whole sources) (hsub : sources ⊆ sources') : p.Whole sources' := by
  rcases hp with hexact | hfailed | ⟨key, fileName, hop, hmem⟩
  · left
    revert hexact
    unfold Draft.Exact
    split
    · exact id
    · exact fun ⟨s, hmem, hbytes⟩ => ⟨s, hsub hmem, hbytes⟩
    · exact id
  · exact .inr (.inl hfailed)
  · exact .inr (.inr ⟨key, fileName, hop, hsub hmem⟩)

/-- Two processes are not in the locked section at once. -/
theorem Sound.inside_unique (hsound : Sound dir K₀ K hs) (hi : (hs i).inside ≠ none)
    (hj : (hs j).inside ≠ none) : i = j := by
  obtain ⟨f, hf⟩ := Option.ne_none_iff_exists'.mp hi
  obtain ⟨g, hg⟩ := Option.ne_none_iff_exists'.mp hj
  obtain ⟨hfi, o, ho, hlock⟩ := (hsound.descs i).inside f hf
  obtain ⟨hgj, x, hx, hlock'⟩ := (hsound.descs j).inside g hg
  have hino : o.ino = x.ino :=
    hsound.wf.ino_eq ((hsound.descs i).info f hfi o ho) ((hsound.descs j).info g hgj x hx)
  have hfg : f = g := by
    by_contra hne
    have hnone := hsound.wf.alone f g o x ho hx hne hino hlock
    rw [hlock'] at hnone
    cases hnone
  subst hfg
  obtain ⟨y, hy, rfl⟩ := (hsound.descs i).own f (.inl hfi)
  obtain ⟨z, hz, rfl⟩ := (hsound.descs j).own f (.inl hgj)
  rw [hy] at hz
  rw [Option.some.inj hz]

/-- Whoever has locked the cache and settled what it has created finds no file that is not locked yet. -/
theorem Sound.settled_of_busy (hsound : Sound dir K₀ K hs) (hbusy : (hs i).Busy) (j : Nat) {p : Draft}
    (hp : p ∈ (hs j).drafts) : p.stage ≠ .created := by
  intro hstage
  have hinside := ((hsound.descs j).created p hp hstage).1
  obtain rfl := hsound.inside_unique hbusy.1 hinside
  exact hbusy.2 p hp hstage

/-! ## From one state to the next -/

/-- Nothing is taken back: a file stays what it is, and so does a draft that has been closed. -/
structure Onward (dir : Text) (K K' : Kernel) (hs hs' : Nat → Hand) : Prop where
  info : ∀ ino < K.nextIno, (IsInfoFile dir K' ino ↔ IsInfoFile dir K ino)
  folders : ∀ e ∈ K.folders, e ∈ K'.folders
  nextFd : K.nextFd ≤ K'.nextFd
  drafts : ∀ i, ∀ p ∈ (hs i).drafts, ∃ p' ∈ (hs' i).drafts, p'.ino = p.ino ∧ p'.path = p.path
  back : ∀ i, ∀ p' ∈ (hs' i).drafts, K.nextIno ≤ p'.ino ∨
    ∃ p ∈ (hs i).drafts, p.ino = p'.ino ∧ (p.stage = .closed → p'.stage = .closed)

/-- What a reader knows of its file lasts. -/
theorem Reading.Known.onward {x : Reading} {o o' : OpenFile} (hx : x.Known dir K₀ K hs o)
    (hlt : o.ino < K.nextIno) (hon : Onward dir K K' hs hs') (hino : o'.ino = o.ino)
    (hlock : o'.lock ≠ none → ∀ i, ∀ p ∈ (hs i).drafts, p.ino = o.ino → p.stage = .closed) :
    x.Known dir K₀ K' hs' o' where
  notInfo := by
    rw [hino, hon.info o.ino hlt]
    exact hx.notInfo
  known := by
    rw [hino]
    rcases hx.known with hold | ⟨e, he, hfolder⟩ | ⟨i, p, hp, hpino, hpath⟩
    · exact .inl hold
    · exact .inr (.inl ⟨e, hon.folders e he, hfolder⟩)
    · obtain ⟨p', hp', hino', hpath'⟩ := hon.drafts i p hp
      exact .inr (.inr ⟨i, p', hp', hino'.trans hpino, by rw [hpath', hpath]⟩)
  locked := by
    intro hlocked i p' hp' hpino
    rw [hino] at hpino
    rcases hon.back i p' hp' with hnew | ⟨p, hp, hpino', hclosed⟩
    · rw [hpino] at hnew
      exact absurd hlt (Nat.not_lt.mpr hnew)
    · exact hclosed (hlock hlocked i p hp (hpino'.trans hpino))

/-- What another process does leaves the descriptors of a process alone. -/
theorem Descs.frame (hd : Descs dir K₀ K hs j h) (hwf : K.Wf) (hon : Onward dir K K' hs hs')
    (hsame : ∀ fd, h.Holds fd → K'.opened fd = K.opened fd)
    (halone : ∀ p ∈ h.drafts, p.stage = .created → ∀ fd o, K'.opened fd = some o → o.ino = p.ino →
      ∃ o₀, K.opened fd = some o₀ ∧ o₀.ino = p.ino) : Descs dir K₀ K' hs' j h where
  own := by
    intro fd hfd
    rw [hsame fd hfd]
    exact hd.own fd hfd
  lt := fun fd hfd => Nat.lt_of_lt_of_le (hd.lt fd hfd) hon.nextFd
  nodup := hd.nodup
  info := by
    intro fd hfd o ho
    rw [hsame fd (.inl hfd)] at ho
    exact (hon.info o.ino (hwf.ino_lt fd o ho)).mpr (hd.info fd hfd o ho)
  inside := by
    intro f hf
    obtain ⟨hmem, o, ho, hlock⟩ := hd.inside f hf
    exact ⟨hmem, o, by rwa [hsame f (.inl hmem)], hlock⟩
  draft := by
    intro p hp hopen
    obtain ⟨o, ho, hrest⟩ := hd.draft p hp hopen
    exact ⟨o, by rwa [hsame p.fd (.inr (.inl ⟨p, hp, rfl, hopen⟩))], hrest⟩
  created := by
    intro p hp hstage
    obtain ⟨hinside, hsole⟩ := hd.created p hp hstage
    refine ⟨hinside, fun fd o ho hino => ?_⟩
    obtain ⟨o₀, ho₀, hino₀⟩ := halone p hp hstage fd o ho hino
    exact hsole fd o₀ ho₀ hino₀
  reading := by
    intro x hx o ho
    rw [hsame x.fd (.inr (.inr ⟨x, hx, rfl⟩))] at ho
    have hknown := hd.reading x hx o ho
    exact hknown.onward (hwf.ino_lt x.fd o ho) hon rfl hknown.locked

/-- Two processes have no descriptor in common. -/
theorem Sound.holds_ne (hsound : Sound dir K₀ K hs) {fd : Nat} {o : OpenFile}
    (ho : K.opened fd = some o) (hopener : o.opener = i) (hj : j ≠ i) {g : Nat} (hg : (hs j).Holds g) :
    g ≠ fd := by
  rintro rfl
  obtain ⟨x, hx, hxj⟩ := (hsound.descs j).own g hg
  rw [ho] at hx
  obtain rfl := Option.some.inj hx
  exact hj (hxj.symm.trans hopener)

end Facts

/-! ## Calls on descriptors -/

/-- What a call does to the files that a process has created. -/
structure Redrafted (h h' : Hand) (φ : Draft → Draft) : Prop where
  drafts : h'.drafts = h.drafts.map φ
  sources : h.sources ⊆ h'.sources
  same : ∀ p, (φ p).fd = p.fd ∧ (φ p).ino = p.ino ∧ (φ p).path = p.path ∧ (φ p).op = p.op
  closed : ∀ p ∈ h.drafts, p.stage = .closed → (φ p).stage = .closed

/-- What a call on a descriptor does to what a process has in hand. -/
structure Revised (h h' : Hand) (φ : Draft → Draft) : Prop extends Redrafted h h' φ where
  infos : h'.infos = h.infos
  readings : h'.readings.Sublist h.readings

/-- The names and the numbers are the same. -/
structure SameStore (K K' : Kernel) : Prop where
  wf : K'.Wf
  files : K'.files.Perm K.files
  folders : K'.folders = K.folders
  nextIno : K'.nextIno = K.nextIno
  nextFd : K.nextFd ≤ K'.nextFd

section Revised

variable {dir : Text} {K₀ K K' : Kernel} {hs : Nat → Hand} {i j : Nat} {h' : Hand} {φ : Draft → Draft}

theorem Redrafted.of_eq {h : Hand} (hdrafts : h'.drafts = h.drafts) (hsources : h.sources ⊆ h'.sources) :
    Redrafted h h' id :=
  ⟨by rw [hdrafts, List.map_id], hsources, fun _ => ⟨rfl, rfl, rfl, rfl⟩, fun _ _ hp => hp⟩

theorem Revised.refl (h : Hand) : Revised h h id :=
  ⟨.of_eq rfl fun _ hs => hs, rfl, List.Sublist.refl _⟩

theorem Revised.fds_sublist {h : Hand} (hrev : Revised h h' φ) : h'.fds.Sublist h.fds := by
  have hdrafts : h'.drafts.map Draft.fd = h.drafts.map Draft.fd := by
    rw [hrev.drafts, List.map_map]
    exact List.map_congr_left fun p _ => (hrev.same p).1
  rw [Hand.fds, Hand.fds, hrev.infos, hdrafts]
  exact List.Sublist.append_left (hrev.readings.map _) _

theorem Revised.holds {h : Hand} (hrev : Revised h h' φ) {fd : Nat} (hfd : h'.Holds fd) : h.Holds fd := by
  rcases hfd with hfd | ⟨q, hq, hqfd, hopen⟩ | ⟨x, hx, hxfd⟩
  · rw [hrev.infos] at hfd
    exact .inl hfd
  · rw [hrev.drafts] at hq
    obtain ⟨p, hp, rfl⟩ := List.mem_map.mp hq
    exact .inr (.inl ⟨p, hp, (hrev.same p).1.symm.trans hqfd, fun hclosed => hopen (hrev.closed p hp hclosed)⟩)
  · exact .inr (.inr ⟨x, hrev.readings.subset hx, hxfd⟩)

theorem SameStore.isInfo (hsame : SameStore K K') (ino : Nat) :
    IsInfoFile dir K' ino ↔ IsInfoFile dir K ino := hsame.files.mem_iff

/-- What process `j` has created, after a call of process `i`. -/
theorem Redrafted.mem_drafts (hrev : Redrafted (hs i) h' φ) {q : Draft}
    (hq : q ∈ (Function.update hs i h' j).drafts) :
    (j = i ∧ ∃ p ∈ (hs i).drafts, q = φ p) ∨ j ≠ i ∧ q ∈ (hs j).drafts := by
  by_cases hj : j = i
  · subst hj
    rw [Function.update_self, hrev.drafts] at hq
    obtain ⟨p, hp, rfl⟩ := List.mem_map.mp hq
    exact .inl ⟨rfl, p, hp, rfl⟩
  · rw [Function.update_of_ne hj] at hq
    exact .inr ⟨hj, hq⟩

/-- What process `j` had created is still there. -/
theorem Redrafted.exists_draft (hrev : Redrafted (hs i) h' φ) {p : Draft} (hp : p ∈ (hs j).drafts) :
    ∃ q ∈ (Function.update hs i h' j).drafts, q.ino = p.ino ∧ q.path = p.path ∧
      (j = i ∧ q = φ p ∨ j ≠ i ∧ q = p) := by
  by_cases hj : j = i
  · subst hj
    rw [Function.update_self, hrev.drafts]
    exact ⟨φ p, List.mem_map_of_mem hp, (hrev.same p).2.1, (hrev.same p).2.2.1, .inl ⟨rfl, rfl⟩⟩
  · rw [Function.update_of_ne hj]
    exact ⟨p, hp, rfl, rfl, .inr ⟨hj, rfl⟩⟩

theorem Redrafted.onward (hrev : Redrafted (hs i) h' φ) (hsame : SameStore K K') :
    Onward dir K K' hs (Function.update hs i h') where
  info := fun ino _ => hsame.isInfo ino
  folders := by
    rw [hsame.folders]
    exact fun _ he => he
  nextFd := hsame.nextFd
  drafts := by
    intro j p hp
    obtain ⟨q, hq, hino, hpath, -⟩ := hrev.exists_draft hp
    exact ⟨q, hq, hino, hpath⟩
  back := by
    intro j q hq
    right
    rcases hrev.mem_drafts hq with ⟨rfl, p, hp, rfl⟩ | ⟨-, hq⟩
    · exact ⟨p, hp, (hrev.same p).2.1.symm, hrev.closed p hp⟩
    · exact ⟨q, hq, rfl, id⟩

/-- What must hold of the contents after a call on a descriptor. -/
structure WrittenTo (K₀ K K' : Kernel) (dir : Text) (hs : Nat → Hand) (i : Nat) (φ : Draft → Draft) : Prop where
  mine : ∀ p ∈ (hs i).drafts, K'.data p.ino = (φ p).bytes
  others : ∀ j, j ≠ i → ∀ p ∈ (hs j).drafts, K'.data p.ino = K.data p.ino
  old : ∀ ino < K₀.nextIno, ¬ IsInfoFile dir K ino → K'.data ino = K.data ino

/-- What is stored agrees with the drafts, as long as only the writer of a draft writes to its file. -/
theorem Stored.revise (hst : Stored dir K₀ K hs) (hrev : Redrafted (hs i) h' φ) (hsame : SameStore K K')
    (hdata : WrittenTo K₀ K K' dir hs i φ)
    (hwhole : ∀ p ∈ (hs i).drafts, (φ p).stage = .closed → (φ p).Whole h'.sources) :
    Stored dir K₀ K' (Function.update hs i h') where
  wf := hsame.wf
  nextIno := by
    rw [hsame.nextIno]
    exact hst.nextIno
  draft := by
    intro j q hq
    rcases hrev.mem_drafts hq with ⟨rfl, p, hp, rfl⟩ | ⟨hj, hq⟩
    · obtain ⟨-, hino, hpath, hop⟩ := hrev.same p
      have hold := hst.draft j p hp
      rw [Function.update_self]
      refine ⟨?_, ?_, ?_, ?_, ?_, ?_, hwhole p hp⟩
      · rw [hino, hsame.nextIno]
        exact hold.lt
      · rw [hino]
        exact hold.new
      · rw [hino, hsame.isInfo]
        exact hold.notInfo
      · rw [hino, hsame.folders]
        exact hold.notFolder
      · rw [hino]
        exact hdata.mine p hp
      · rw [hpath, hop]
        exact hold.named
    · rw [Function.update_of_ne hj]
      have hold := hst.draft j q hq
      refine ⟨?_, hold.new, ?_, ?_, ?_, hold.named, hold.whole⟩
      · rw [hsame.nextIno]
        exact hold.lt
      · rw [hsame.isInfo]
        exact hold.notInfo
      · rw [hsame.folders]
        exact hold.notFolder
      · rw [hdata.others j hj q hq]
        exact hold.data
  distinct := by
    intro j k q hq q' hq' hino
    rcases hrev.mem_drafts hq with ⟨rfl, p, hp, rfl⟩ | ⟨hj, hp⟩
    · rcases hrev.mem_drafts hq' with ⟨rfl, p', hp', rfl⟩ | ⟨hk, hp'⟩
      · rw [(hrev.same p).2.1, (hrev.same p').2.1] at hino
        obtain ⟨-, rfl⟩ := hst.distinct k k p hp p' hp' hino
        exact ⟨rfl, rfl⟩
      · rw [(hrev.same p).2.1] at hino
        exact absurd (hst.distinct j k p hp q' hp' hino).1.symm hk
    · rcases hrev.mem_drafts hq' with ⟨rfl, p', hp', rfl⟩ | ⟨hk, hp'⟩
      · rw [(hrev.same p').2.1] at hino
        exact absurd (hst.distinct j k q hp p' hp' hino).1 hj
      · exact hst.distinct j k q hp q' hp' hino
  known := by
    intro e he hinfo hnew
    rw [hsame.isInfo] at hinfo
    obtain ⟨j, p, hp, hino, hpath⟩ := hst.known e (hsame.files.mem_iff.mp he) hinfo hnew
    obtain ⟨q, hq, hqino, hqpath, -⟩ := hrev.exists_draft hp
    exact ⟨j, q, hq, hqino.trans hino, by rw [hqpath, hpath]⟩
  old := by
    intro ino hlt hinfo
    rw [hsame.isInfo] at hinfo
    rw [hdata.old ino hlt hinfo]
    exact hst.old ino hlt hinfo

/-- Nothing is written. -/
theorem Stored.written (hst : Stored dir K₀ K hs) (hdata : K'.data = K.data)
    (hbytes : ∀ p ∈ (hs i).drafts, (φ p).bytes = p.bytes) : WrittenTo K₀ K K' dir hs i φ where
  mine := by
    intro p hp
    rw [hdata, hbytes p hp]
    exact (hst.draft i p hp).data
  others := fun _ _ _ _ => by rw [hdata]
  old := fun _ _ _ => by rw [hdata]

end Revised

end Skunk.BesUtils
