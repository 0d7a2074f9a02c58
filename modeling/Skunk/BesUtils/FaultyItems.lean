import Skunk.BesUtils.FaultySection

/-!
# Items in the section, when calls fail

A client that holds the lock of the cache makes an item, which is pending as soon as it is locked, and
settles the claim with the size that it records; or it opens one that is there, and removes it.
-/

namespace Skunk.BesUtils

open Effect Posix

namespace Faulty

variable {u : Usage} {i f fd n d : Nat} {x : Option Nat} {op : CacheOp} {t : Session}
  {s₀ s s' s'' : View} {o : OpenFile} {fc : FileCache} {key : Text}

/-! ## A new item -/

/-- A file that the client has just made. -/
structure Made (u : Usage) (i f n : Nat) (x : Option Nat) (d : Nat) (s₀ : View) (fd : Nat) (o : OpenFile)
    (s : View) : Prop where
  at_ : At u i f n x d s₀ s
  held : Held i f n fd o s
  file : ∃ loc, (loc, o.ino) ∈ s.1.files
  notInfo : ¬ u.IsInfo s.1 o.ino
  free : ∀ c ∈ s.2.pending, c.ino ≠ o.ino ∧ c.fd ≠ fd
  empty : s.1.data o.ino = []

theorem Made.kept (h : Made u i f n x d s₀ fd o s) (hk : Kept u i f s s') : Made u i f n x d s₀ fd o s' where
  at_ := h.at_.kept hk
  held := h.held.kept hk
  file := by
    obtain ⟨loc, hloc⟩ := h.file
    exact ⟨loc, hk.still.files.mem_iff.mpr hloc⟩
  notInfo := by
    rw [hk.still.isInfo]
    exact h.notInfo
  free := fun c hc => h.free c (hk.still.pending c hc)
  empty := by
    obtain ⟨loc, hloc⟩ := h.file
    rw [hk.still.data _ hloc h.notInfo fun c hc => (h.free c hc).1]
    exact h.empty

/-- The client's own file, locked and pending. -/
structure Claimed (u : Usage) (i f n : Nat) (x : Option Nat) (d : Nat) (s₀ : View) (fd : Nat) (o : OpenFile)
    (s : View) : Prop where
  at_ : At u i f n x d s₀ s
  held : Held i f n fd o s
  claim : ⟨i, fd, o.ino⟩ ∈ s.2.pending

theorem Claimed.kept (h : Claimed u i f n x d s₀ fd o s) (hk : Kept u i f s s') :
    Claimed u i f n x d s₀ fd o s' :=
  ⟨h.at_.kept hk, h.held.kept hk, (hk.claims _ rfl).mpr h.claim⟩

theorem Weightless.kept {ino : Nat} (h : Weightless u s.1 ino) (hk : Kept u i f s s')
    (hdata : s'.1.data ino = s.1.data ino) : Weightless u s'.1 ino := by
  rcases h with hitem | hempty
  · exact .inl fun e he => hitem e (hk.still.files.mem_iff.mp he)
  · exact .inr (hdata.trans hempty)

/-- Nothing that is pending under the descriptor counts. -/
def Loose (u : Usage) (fd : Nat) (s : View) : Prop :=
  ∀ c ∈ s.2.pending, c.fd = fd → Weightless u s.1 c.ino

theorem Loose.kept (h : Loose u fd s) (hinv : Inv u s) (hheld : Held i f n fd o s) (hk : Kept u i f s s') :
    Loose u fd s' := by
  intro c hc hfd
  have hmem := hk.still.pending c hc
  have hclient := hinv.client_eq hheld.opened hheld.opener hmem hfd
  exact (h c hmem hfd).kept hk (hk.claimed c hmem hclient)

theorem Claimed.loose (h : Claimed u i f n x d s₀ fd o s) (hinv : Inv u s)
    (hless : Weightless u s.1 o.ino) : Loose u fd s := by
  intro c hc hfd
  obtain ⟨y, hy, -, hino, -⟩ := hinv.claim c hc
  rw [hfd, h.held.opened] at hy
  obtain rfl := Option.some.inj hy
  rwa [← hino]

/-- A new description. -/
theorem At.next_held {K' : Kernel} {ino : Nat} (h : At u i f n x d s₀ s)
    (hopened : K'.opened s.1.nextFd = some ⟨ino, 0, none, i⟩) (hinv : Inv u s) :
    Held i f n s.1.nextFd ⟨ino, 0, none, i⟩ (K', s.2) := by
  obtain ⟨y, hy, -⟩ := h.inside
  exact ⟨hopened, rfl, h.next, (hinv.next_ne hy).symm⟩

/-- No claim is under the next descriptor. -/
theorem Inv.claim_fd_ne (hinv : Inv u s) {c : Pending} (hc : c ∈ s.2.pending) : c.fd ≠ s.1.nextFd := by
  obtain ⟨y, hy, -⟩ := hinv.claim c hc
  exact hinv.next_ne hy

/-- `create_key` in the section. -/
theorem createKey_keeps (hin : At u i f n x d s₀ s) :
    Keeps u i op t (fc.createKey key) (fun r s' => match r with
      | none => At u i f n x d s₀ s'
      | some fd => ∃ o, o.lock = none ∧ Made u i f n x d s₀ fd o s') s := by
  refine keeps_call fun s1 hrely hinv => ⟨trivial, fun r w hdoes _ => ?_⟩
  have h1 := hin.rely hrely
  rcases Kernel.does_create hdoes with ⟨rfl, rfl⟩ | ⟨loc, hloc, hnew, rfl, rfl⟩
  · exact ⟨s1.2, .same hinv, keeps_pure fun s2 hrely2 _ => h1.rely hrely2⟩
  · have hnames := Kernel.locate_names hloc
    have hmove := Move.addFile hinv hnew hnames (.inl h1.inside)
    have hopened : ∀ g y, s1.1.opened g = some y → (s1.1.addFile i loc).opened g = some y := by
      intro g y hy
      rw [Kernel.addFile_opened_of_ne (hinv.next_ne hy)]
      exact hy
    have hat : At u i f n x d s₀ (s1.1.addFile i loc, s1.2) := by
      obtain ⟨y, hy, hi, hinfo, hlock⟩ := h1.inside
      refine ⟨⟨y, hopened f y hy, hi, List.mem_cons_of_mem _ hinfo, hlock⟩, ?_,
        Nat.le_succ_of_le h1.next, fun g z hg hne hz hzi => hopened g z (h1.own g z hg hne hz hzi), h1.claims⟩
      rw [Usage.counted_addFile hinv.wf, recorded_addFile hinv.wf hnew (hinv.wf.addFile i hnew hnames)]
      exact h1.room
    have hmade : Made u i f n x d s₀ s1.1.nextFd ⟨s1.1.nextIno, 0, none, i⟩
        (s1.1.addFile i loc, s1.2) := by
      refine ⟨hat, h1.next_held Kernel.addFile_opened_self hinv, ⟨loc, List.mem_cons_self⟩, ?_, ?_,
        Kernel.addFile_data_self⟩
      · obtain ⟨y, hy, -, hinfo, -⟩ := h1.inside
        intro hmem
        rcases List.mem_cons.mp hmem with heq | hmem
        · have hlook := hinv.wf.lookup_entries.mpr (Kernel.mem_entries_of_file hinfo)
          rw [(Prod.mk.inj heq).1, hnew] at hlook
          cases hlook
        · exact absurd (hinv.wf.entry_lt _ (Kernel.mem_entries_of_file hmem)) (Nat.lt_irrefl _)
      · intro c hc
        refine ⟨?_, hinv.claim_fd_ne hc⟩
        obtain ⟨y, hy, -, hino, -⟩ := hinv.claim c hc
        rw [← hino]
        exact Nat.ne_of_lt (hinv.wf.ino_lt _ y hy)
    exact ⟨s1.2, hmove, keeps_pure fun s2 hrely2 _ => ⟨_, rfl, hmade.kept (.of_rely hat.inside hrely2)⟩⟩

/-- `futimes` changes access times only. -/
theorem futimes_keeps (hin : Inside u s.1 i f) :
    Keeps u i op t (call (.futimes fd)) (fun _ s' => Kept u i f s s') s := by
  refine keeps_call fun s1 hrely hinv => ⟨trivial, fun r w hdoes _ => ?_⟩
  have hk : Kept u i f s s1 := .of_rely hin hrely
  have hexec := exec_of_mayFail rfl hdoes
  rw [Kernel.exec] at hexec
  split at hexec
  · obtain ⟨-, rfl⟩ := Prod.mk.inj (Option.some.inj hexec)
    exact ⟨s1.2, .same hinv, keeps_pure fun s2 hrely2 _ => hk.trans (.of_rely hk.inside hrely2)⟩
  next y hy =>
    obtain ⟨-, rfl⟩ := Prod.mk.inj (Option.some.inj hexec)
    have hwf : ({ s1.1 with atime := Function.update s1.1.atime y.ino s1.1.now } : Kernel).Wf :=
      { hinv.wf with }
    obtain ⟨hinv', hall⟩ := quiet hinv hwf (.refl _) (fun _ he => he) rfl (Nat.le_refl _) (fun _ _ => rfl)
    have hk' := hk.trans (.of_rely hk.inside (hall i))
    exact ⟨s1.2, ⟨hinv', fun j _ => hall j⟩, keeps_pure fun s2 hrely2 _ =>
      hk'.trans (.of_rely hk'.inside hrely2)⟩

/-- A client locks its new file, and it is pending. -/
theorem lockNew_keeps (h : Made u i f n x d s₀ fd o s) :
    Keeps u i op t (lockTheItem fd .exclusive false) (fun r s' => r = true ∧ Inv u s' ∧
      ∃ o', o'.ino = o.ino ∧ o'.lock = some .exclusive ∧ Claimed u i f n x d s₀ fd o' s' ∧
        Weightless u s'.1 o'.ino) s := by
  refine keeps_call fun s1 hrely hinv => ⟨trivial, fun r w hdoes _ => ?_⟩
  have h1 := h.kept (.of_rely h.at_.inside hrely)
  have ho := h1.held.opened
  rcases Kernel.exec_flock ho (exec_of_mayFail rfl hdoes) with ⟨rfl, hgrants, rfl⟩ | ⟨-, -, hnb⟩
  swap
  · cases hnb
  have hwf : (s1.1.setOpen fd (some { o with lock := some .exclusive })).Wf :=
    hinv.wf.setLock ho fun fd' y hy hne hino =>
      Kernel.compatible_of_granted ((Kernel.grants_iff hinv.wf).mp hgrants fd' y hy hne hino)
  have hd : Usage.Differs s1.1 (s1.1.setOpen fd (some { o with lock := some .exclusive })) fd
      (some { o with lock := some .exclusive }) := ⟨rfl, rfl, rfl, rfl⟩
  obtain ⟨hmove, hat⟩ := h1.held.change hinv h1.at_ hwf hd rfl fun ⟨c, hc, hfd⟩ => absurd hfd (h1.free c hc).2
  have hclaim := Move.claim hmove.inv hat.inside Kernel.setOpen_opened_self h1.held.opener rfl h1.notInfo
  have hclaimed : Claimed u i f n x d s₀ fd { o with lock := some .exclusive }
      (s1.1.setOpen fd (some { o with lock := some .exclusive }),
        { s1.2 with pending := ⟨i, fd, o.ino⟩ :: s1.2.pending }) := by
    refine ⟨⟨hat.inside, ?_, hat.next, hat.own, ?_⟩, ⟨Kernel.setOpen_opened_self, h1.held.opener, h1.held.new,
      h1.held.ne⟩, List.mem_cons_self⟩
    · exact Nat.le_trans (Nat.add_le_add_right (counted_anti fun c hc => List.mem_cons_of_mem _ hc) d) hat.room
    · intro c hc hlt hx
      rw [← hat.claims c hc hlt hx]
      refine List.mem_cons.trans (or_iff_right ?_)
      rintro rfl
      exact absurd hlt (Nat.not_lt.mpr h1.held.new)
  refine ⟨_, hmove.trans hclaim, ?_⟩
  refine (futimes_keeps hclaimed.at_.inside).andThen hclaim.inv fun r s2 hinv2 hk => ?_
  refine keeps_pure fun s3 hrely3 hinv3 => ?_
  have hk3 := hk.trans (.of_rely hk.inside hrely3)
  refine ⟨rfl, hinv3, { o with lock := some .exclusive }, rfl, rfl, hclaimed.kept hk3, .inr ?_⟩
  exact (hk3.claimed _ hclaimed.claim rfl).trans h1.empty

/-- The operation puts an item or is a `PutItem` that is destroyed. -/
def Adds : CacheOp → Prop
  | .initCache _ _ _ | .writePutItem _ _ | .del _ | .purge => False
  | _ => True

theorem Adds.records (h : Adds op) : Records op := by
  cases op with
  | initCache | writePutItem | del | purge => exact False.elim h
  | _ => exact trivial

theorem Adds.not_forgives (h : Adds op) : ¬ Forgives op t := by
  rintro ⟨rfl, -⟩
  exact h

theorem weightless_of_onNothing {K : Kernel} (ho : K.opened fd = some o)
    (h : onNothing u.home K fd = true) : Weightless u K o.ino := by
  rw [onNothing, onItem, ho, Usage.openSize, ho, Bool.or_eq_true, Bool.not_eq_true', List.any_eq_false,
    decide_eq_true_eq, List.length_eq_zero_iff] at h
  refine h.imp_left fun hall e he hino hitem => hall e he ?_
  exact decide_eq_true ⟨hino, hitem⟩

theorem sound_write_item {K K' : Kernel} {r : Option Nat} {bytes : List UInt8} (hop : Records op)
    (hinfo : onInfo u.home K fd = false) (h : sound u.home op t (.write fd bytes) K r K' = true) :
    r = some bytes.length ∨ onNothing u.home K' fd = true := by
  have hif : ∀ {p : Bool}, (if onInfo u.home K fd then p
      else decide (r = some bytes.length) || onNothing u.home K' fd) = true →
      r = some bytes.length ∨ onNothing u.home K' fd = true := by
    intro p hp
    rw [hinfo, if_neg (by simp), Bool.or_eq_true, decide_eq_true_eq] at hp
    exact hp
  cases op with
  | initCache | writePutItem => exact False.elim hop
  | _ => exact hif h

/-- Nothing that is written makes a file shorter. -/
theorem length_le_overwrite (old : List UInt8) (pos : Nat) (bytes : List UInt8) :
    old.length ≤ (overwrite old pos bytes).length := by
  unfold overwrite
  split
  · exact Nat.le_refl _
  · simp only [List.length_append, List.length_take, List.length_replicate, List.length_drop]
    omega

/-- A claim is not on `cache_info`. -/
theorem Claimed.not_onInfo (h : Claimed u i f n x d s₀ fd o s) (hinv : Inv u s) :
    onInfo u.home s.1 fd = false := by
  obtain ⟨y, hy, -, -, -, hinfo⟩ := hinv.claim _ h.claim
  rw [h.held.opened] at hy
  obtain rfl := Option.some.inj hy
  rw [onInfo, h.held.opened]
  exact decide_eq_false hinfo

/-- Writing to the new file. -/
theorem writeNew_keeps {bytes : List UInt8} (hop : Records op) (h : Claimed u i f n x d s₀ fd o s) :
    Keeps u i op t (call (.write fd bytes)) (fun r s' => ∃ o', Claimed u i f n x d s₀ fd o' s' ∧
      (r = some bytes.length ∨ Weightless u s'.1 o'.ino)) s := by
  refine keeps_call fun s1 hrely hinv => ⟨trivial, fun r w hdoes hsound => ?_⟩
  have h1 := h.kept (.of_rely h.at_.inside hrely)
  have hend := sound_write_item hop (h1.not_onInfo hinv) hsound
  have hdone : ∀ {w : Kernel} {o' : OpenFile}, (r = some bytes.length ∨ onNothing u.home w fd = true) →
      Claimed u i f n x d s₀ fd o' (w, s1.2) → Keeps u i op t (pure r) (fun r s' =>
        ∃ o', Claimed u i f n x d s₀ fd o' s' ∧ (r = some bytes.length ∨ Weightless u s'.1 o'.ino))
        (w, s1.2) := by
    intro w o' hor hclaimed
    refine keeps_pure fun s2 hrely2 _ => ?_
    have hk : Kept u i f (w, s1.2) s2 := .of_rely hclaimed.at_.inside hrely2
    refine ⟨o', hclaimed.kept hk, hor.imp_right fun hnothing => ?_⟩
    exact (weightless_of_onNothing hclaimed.held.opened hnothing).kept hk (hk.claimed _ hclaimed.claim rfl)
  rcases Kernel.does_write h1.held.opened hdoes with ⟨-, rfl⟩ | ⟨m, -, -, -, rfl⟩
  · exact ⟨s1.2, .same hinv, hdone hend h1⟩
  · have hmove := Move.fill (overwrite (s1.1.data o.ino) o.offset (bytes.take m)) hinv h1.claim rfl
      (length_le_overwrite _ _ _)
    have hat : At u i f n x d s₀ (s1.1.setData o.ino (overwrite (s1.1.data o.ino) o.offset (bytes.take m)),
        s1.2) := by
      refine ⟨h1.at_.inside, ?_, h1.at_.next, h1.at_.own, h1.at_.claims⟩
      rw [Usage.counted_setData_of_not fun e _ hino hx => hx.2 _ h1.claim hino.symm,
        Usage.recorded_setData_of_ne (fun hinfo => hinv.claim_ne h1.claim hinfo rfl) hinv.wf s1.2]
      exact h1.at_.room
    have hheld : Held i f n fd o (s1.1.setData o.ino (overwrite (s1.1.data o.ino) o.offset (bytes.take m)),
        s1.2) := ⟨h1.held.opened, h1.held.opener, h1.held.new, h1.held.ne⟩
    obtain ⟨hmove', hat'⟩ := hheld.change hmove.inv hat (hmove.inv.wf.setOffset h1.held.opened (o.offset + m))
      ⟨rfl, rfl, rfl, rfl⟩ rfl fun _ => ⟨_, rfl, rfl, rfl, rfl⟩
    refine ⟨s1.2, hmove.trans hmove', hdone hend ⟨hat', ⟨Kernel.setOpen_opened_self, h1.held.opener,
      h1.held.new, h1.held.ne⟩, h1.claim⟩⟩

/-- Copying into the new file. -/
theorem copyPieces_keeps (hop : Records op) (pieces : List (List UInt8)) (hinv : Inv u s)
    (h : Claimed u i f n x d s₀ fd o s) :
    Keeps u i op t (FileCache.copyPieces fd pieces) (fun r s' => ∃ o', Claimed u i f n x d s₀ fd o' s' ∧
      (r = true ∨ Weightless u s'.1 o'.ino)) s := by
  induction pieces generalizing s o with
  | nil =>
      exact keeps_pure fun s1 hrely _ => ⟨o, h.kept (.of_rely h.at_.inside hrely), .inl rfl⟩
  | cons buf rest ih =>
      refine (writeNew_keeps hop h).andThen hinv ?_
      rintro written s1 hinv1 ⟨o1, h1, hor⟩
      split
      · exact ih hinv1 h1
      next hne =>
        refine keeps_pure fun s2 hrely _ => ?_
        have hk : Kept u i f s1 s2 := .of_rely h1.at_.inside hrely
        exact ⟨o1, h1.kept hk, .inr ((hor.resolve_left hne).kept hk (hk.claimed _ h1.claim rfl))⟩

/-! ## Settling a claim -/

/-- Claims under one descriptor are about one file. -/
theorem weight_without (hinv : Inv u s) (ho : s.1.opened fd = some o) {e : List Text × Nat}
    (he : e.2 ≠ o.ino) : u.weight (s.1, without fd s.2) e = u.weight s e := by
  have hiff : (∀ c ∈ (without fd s.2).pending, c.ino ≠ e.2) ↔ ∀ c ∈ s.2.pending, c.ino ≠ e.2 := by
    refine ⟨fun hall c hc => ?_, fun hall c hc => hall c (mem_without.mp hc).1⟩
    by_cases hfd : c.fd = fd
    · obtain ⟨y, hy, -, hino, -⟩ := hinv.claim c hc
      rw [hfd, ho] at hy
      obtain rfl := Option.some.inj hy
      rw [← hino]
      exact Ne.symm he
    · exact hall c (mem_without.mpr ⟨hc, hfd⟩)
  simp only [Usage.weight, hiff]

/-- Once its claim is settled, a file counts for what it holds. -/
theorem counted_settled_le (hinv : Inv u s) (ho : s.1.opened fd = some o) :
    u.counted (s.1, without fd s.2) ≤ u.counted s + (s.1.data o.ino).length := by
  by_cases hfile : ∃ e ∈ s.1.files, e.2 = o.ino
  · obtain ⟨e, he, hino⟩ := hfile
    have hsum := sum_change (u.weight s) (u.weight (s.1, without fd s.2)) (Usage.files_nodup hinv.wf) he ?_
    · have hweight : u.weight (s.1, without fd s.2) e ≤ (s.1.data o.ino).length := by
        rw [Usage.weight, ← hino]
        split
        · exact Nat.le_refl _
        · exact Nat.zero_le _
      have hcounted : u.counted (s.1, without fd s.2) + u.weight s e =
          u.counted s + u.weight (s.1, without fd s.2) e := hsum
      omega
    · intro y hy hne
      refine weight_without hinv ho fun hyino => hne ?_
      exact hinv.wf.eq_of_ino (Kernel.mem_entries_of_file hy) (Kernel.mem_entries_of_file he)
        (hyino.trans hino.symm)
  · refine Nat.le_trans (Nat.le_of_eq ?_) (Nat.le_add_right _ _)
    rw [Usage.counted, Usage.counted]
    congr 1
    apply List.map_congr_left
    intro e he
    exact weight_without hinv ho fun hino => hfile ⟨e, he, hino⟩

theorem sound_fstat {K K' : Kernel} {r : Option Nat} (hop : Adds op)
    (h : sound u.home op t (.fstat fd) K r K' = true) :
    r.getD 0 = Usage.openSize K fd ∧ recordedSize u.home K + Usage.openSize K fd < 2 ^ 64 := by
  have hand : ∀ {p q : Prop} [Decidable p] [Decidable q], (decide p && decide q) = true → p ∧ q := by
    intro p q _ _ hpq
    rw [Bool.and_eq_true, decide_eq_true_eq, decide_eq_true_eq] at hpq
    exact hpq
  cases op with
  | initCache | writePutItem | del | purge => exact False.elim hop
  | _ => exact hand h

/-- `get_file_size` of a pending file. -/
theorem getFileSize_keeps (hop : Adds op) (hin : Inside u s.1 i f) (ho : s.1.opened fd = some o)
    (hi : o.opener = i) (hne : fd ≠ f) (hclaim : ⟨i, fd, o.ino⟩ ∈ s.2.pending) :
    Keeps u i op t (getFileSize fd) (fun v s' => Kept u i f s s' ∧ v = (s'.1.data o.ino).length ∧
      u.recorded s' + v < 2 ^ 64) s := by
  refine keeps_call fun s1 hrely hinv => ⟨trivial, fun r w hdoes hsound => ?_⟩
  have hk : Kept u i f s s1 := .of_rely hin hrely
  obtain rfl := eq_of_asks rfl hdoes
  obtain ⟨hsize, hlt⟩ := sound_fstat hop hsound
  have ho1 := hk.own fd o hne ho hi
  rw [Usage.openSize, ho1] at hsize hlt
  refine ⟨s1.2, .same hinv, keeps_pure fun s2 hrely2 _ => ?_⟩
  have hk2 : Kept u i f s1 s2 := .of_rely hk.inside hrely2
  rw [hk2.claimed _ ((hk.claims _ rfl).mpr hclaim) rfl, hk2.still.recorded, hsize]
  exact ⟨hk.trans hk2, rfl, hlt⟩

/-- The size of a pending file is recorded. -/
theorem settle_keeps (hop : Adds op) (hinv : Inv u s) (hin : Inside u s.1 i f)
    (ho : s.1.opened fd = some o) (hi : o.opener = i) (hne : fd ≠ f)
    (hclaim : ⟨i, fd, o.ino⟩ ∈ s.2.pending) :
    Keeps u i op t (FileCache.addFileSize f fd) (fun _ s' => Updated u i f (some fd) s s') s := by
  refine (getCacheInfoSize_keeps hin).andThen hinv ?_
  rintro recorded s1 hinv1 ⟨hk1, hrecorded⟩
  have hrecorded := hrecorded.resolve_right fun hforgives => hop.not_forgives hforgives.2
  have ho1 := hk1.own fd o hne ho hi
  have hclaim1 := (hk1.claims ⟨i, fd, o.ino⟩ rfl).mpr hclaim
  refine (getFileSize_keeps hop hk1.inside ho1 hi hne hclaim1).andThen hinv1 ?_
  rintro size s2 hinv2 ⟨hk2, hsize, hlt⟩
  have hsum : recorded + size = u.recorded s2 + size := by rw [hrecorded, hk2.still.recorded]
  have ho2 := hk2.own fd o hne ho1 hi
  have hclaim2 := (hk2.claims ⟨i, fd, o.ino⟩ rfl).mpr hclaim1
  rw [hsum, Nat.mod_eq_of_lt hlt]
  refine (updateCacheInfoSize_keeps (x := some fd) hop.records hk2.inside hlt ?_ ?_).mono ?_
  · rintro _ ⟨⟩
    exact ⟨o, ho2, hi, hne⟩
  · intro s3 hinv3 hk3
    have hle := counted_settled_le hinv3 (hk3.own fd o hne ho2 hi)
    rw [hk3.claimed _ hclaim2 rfl, ← hsize] at hle
    exact Nat.le_trans hle (Nat.add_le_add_right (by rw [← hk3.still.recorded]; exact hinv3.enough) size)
  · exact fun _ s3 _ hupdated => (hk1.trans hk2).updated hupdated

/-! ## Closing -/

/-- Files may be gone, but those that are left did not get shorter; the recorded size is the same. -/
structure Trimmed (u : Usage) (s s' : View) : Prop where
  files : ∀ e ∈ s'.1.files, e ∈ s.1.files ∧ (s.1.data e.2).length ≤ (s'.1.data e.2).length
  recorded : u.recorded s' = u.recorded s

theorem Trimmed.trans (h : Trimmed u s s') (h' : Trimmed u s' s'') : Trimmed u s s'' where
  files := by
    intro e he
    obtain ⟨hmem', hle'⟩ := h'.files e he
    obtain ⟨hmem, hle⟩ := h.files e hmem'
    exact ⟨hmem, Nat.le_trans hle hle'⟩
  recorded := h'.recorded.trans h.recorded

theorem Still.trimmed (h : Still u s s') : Trimmed u s s' where
  files := by
    intro e he
    have hmem := h.files.mem_iff.mp he
    exact ⟨hmem, h.grows e hmem⟩
  recorded := h.recorded

/-- `~Item` of a new descriptor. -/
theorem closeNew_keeps (h : At u i f n x d s₀ s) (hheld : Held i f n fd o s) (hinv : Inv u s)
    (hloose : Loose u fd s) :
    Keeps u i op t (call (.close fd)) (fun _ s' => At u i f n x d s₀ s' ∧ Trimmed u s s') s := by
  refine keeps_call fun s1 hrely hinv1 => ⟨trivial, fun r w hdoes _ => ?_⟩
  have hk : Kept u i f s s1 := .of_rely h.inside hrely
  have h1 := h.kept hk
  have hheld1 := hheld.kept hk
  obtain ⟨-, rfl⟩ := Prod.mk.inj (Option.some.inj (exec_of_mayFail rfl hdoes))
  have hmove := Move.close hinv1 hheld1.opened hheld1.opener (hloose.kept hinv hheld hk)
  have hcounted := counted_without (hloose.kept hinv hheld hk)
  have hd : Usage.Differs s1.1 (s1.1.setOpen fd none) fd none := ⟨rfl, rfl, rfl, rfl⟩
  have hat : At u i f n x d s₀ (s1.1.setOpen fd none, without fd s1.2) := by
    obtain ⟨y, hy, hi, hinfo, hlock⟩ := h1.inside
    refine ⟨⟨y, by rw [hd.opened_ne hheld.ne.symm, hy], hi, hinfo, hlock⟩, ?_, h1.next, ?_, ?_⟩
    · exact Nat.le_trans (Nat.add_le_add_right hcounted d) h1.room
    · intro g z hg hne hz hzi
      rw [hd.opened_ne (Nat.ne_of_lt (Nat.lt_of_lt_of_le hg hheld.new))]
      exact h1.own g z hg hne hz hzi
    · intro c hc hlt hx
      rw [← h1.claims c hc hlt hx, mem_without]
      exact and_iff_left (Nat.ne_of_lt (Nat.lt_of_lt_of_le hlt hheld.new))
  refine ⟨without fd s1.2, hmove, keeps_pure fun s2 hrely2 _ => ?_⟩
  have hstill := hrely2.still f hat.inside
  refine ⟨hat.rely hrely2, hk.still.trimmed.trans (Trimmed.trans ?_ hstill.trimmed)⟩
  exact ⟨fun e he => ⟨he, Nat.le_refl _⟩, hd.recorded _⟩

/-- An `Item` that is destroyed at the end of the section. -/
theorem withItem_keeps {α : Type} {body : Sys α} {freed : α → Nat} {P : α → View → Prop} (hinv : Inv u s)
    (hbody : Keeps u i op t body (fun a s1 => At u i f n x (freed a) s₀ s1 ∧
      (∃ o, Held i f n fd o s1) ∧ Loose u fd s1 ∧ P a s1) s) :
    Keeps u i op t (withItem fd body) (fun a s' => At u i f n x (freed a) s₀ s' ∧
      ∃ s1, P a s1 ∧ Trimmed u s1 s') s := by
  refine hbody.andThen hinv ?_
  rintro a s1 hinv1 ⟨hat, ⟨o, hheld⟩, hloose, hp⟩
  refine (closeNew_keeps hat hheld hinv1 hloose).andThen hinv1 ?_
  rintro r s2 - ⟨hat2, htrimmed⟩
  refine keeps_pure fun s3 hrely3 _ => ⟨hat2.rely hrely3, s1, hp, htrimmed.trans ?_⟩
  exact (hrely3.still f hat2.inside).trimmed

/-! ## An item that is there -/

/-- The path leads to the file. -/
def Placed (path : Text) (ino : Nat) (s : View) : Prop := (resolve (cStr path), ino) ∈ s.1.files

/-- A new descriptor without claims. -/
structure Opened (i f n fd : Nat) (o : OpenFile) (s : View) : Prop extends Held i f n fd o s where
  unclaimed : ∀ c ∈ s.2.pending, c.fd ≠ fd

theorem Opened.kept (h : Opened i f n fd o s) (hk : Kept u i f s s') : Opened i f n fd o s' :=
  ⟨h.toHeld.kept hk, fun c hc => h.unclaimed c (hk.still.pending c hc)⟩

theorem Opened.loose (h : Opened i f n fd o s) : Loose u fd s :=
  fun c hc hfd => absurd hfd (h.unclaimed c hc)

/-- One more description in the section. -/
theorem open_section (hinv : Inv u s) (h : At u i f n x d s₀ s) {ino : Nat} (hino : ino < s.1.nextIno) :
    Move u i s (s.1.addOpen i ino, s.2) ∧ Kept u i f s (s.1.addOpen i ino, s.2) ∧
      Opened i f n s.1.nextFd ⟨ino, 0, none, i⟩ (s.1.addOpen i ino, s.2) := by
  have hd : Usage.Differs s.1 (s.1.addOpen i ino) s.1.nextFd (some ⟨ino, 0, none, i⟩) :=
    ⟨rfl, rfl, rfl, rfl⟩
  have hopened : ∀ g y, s.1.opened g = some y → (s.1.addOpen i ino).opened g = some y := by
    intro g y hy
    rw [hd.opened_ne (hinv.next_ne hy)]
    exact hy
  have hnone : ∀ y, s.1.opened s.1.nextFd ≠ some y := by
    intro y hy
    rw [hinv.opened_next] at hy
    cases hy
  refine ⟨.of_differs hinv (hinv.wf.addOpen i hino) hd (Nat.le_succ _) (fun y hy => absurd hy (hnone y))
    (fun _ y hy => absurd hy (hnone y)), ?_, h.next_held hd.opened_self hinv, fun c hc => hinv.claim_fd_ne hc⟩
  obtain ⟨y, hy, hi, hinfo, hlock⟩ := h.inside
  exact ⟨⟨y, hopened f y hy, hi, hinfo, hlock⟩, fun g z _ hz _ => hopened g z hz, Nat.le_succ _,
    fun _ _ => Iff.rfl, fun _ _ _ => rfl, .of_differs hd⟩

/-- Opening an item for writing. -/
theorem openWrite_keeps {path : Text} (h : At u i f n x d s₀ s) :
    Keeps u i op t (call (.openWrite path)) (fun r s' => Kept u i f s s' ∧
      ∀ fd, r = some fd → ∃ o, o.lock = none ∧ Opened i f n fd o s' ∧ Placed path o.ino s') s := by
  refine keeps_call fun s1 hrely hinv => ⟨trivial, fun r w hdoes _ => ?_⟩
  have hk : Kept u i f s s1 := .of_rely h.inside hrely
  rcases Kernel.does_openWrite hdoes with ⟨rfl, rfl⟩ | ⟨ino, hino, rfl, rfl⟩
  · exact ⟨s1.2, .same hinv, keeps_pure fun s2 hrely2 _ => ⟨hk.trans (.of_rely hk.inside hrely2), nofun⟩⟩
  · obtain ⟨loc, hloc, hlook⟩ := Option.bind_eq_some_iff.mp hino
    have hmem := hinv.wf.lookup_files.mp hlook
    obtain ⟨hmove, hk', hopened⟩ := open_section hinv (h.kept hk)
      (hinv.wf.entry_lt _ (Kernel.mem_entries_of_file hmem))
    refine ⟨s1.2, hmove, keeps_pure fun s2 hrely2 _ => ?_⟩
    have hk2 : Kept u i f _ s2 := .of_rely hk'.inside hrely2
    refine ⟨(hk.trans hk').trans hk2, ?_⟩
    rintro _ ⟨⟩
    refine ⟨_, rfl, hopened.kept hk2, (hk'.trans hk2).still.files.mem_iff.mpr ?_⟩
    rw [← Kernel.locate_eq hloc]
    exact hmem

/-- Opening an item for reading. -/
theorem openRead_keeps {path : Text} (h : At u i f n x d s₀ s) :
    Keeps u i op t (call (.openRead path)) (fun r s' => Kept u i f s s' ∧
      ∀ fd, r = some fd → ∃ o, o.lock = none ∧ Opened i f n fd o s') s := by
  refine keeps_call fun s1 hrely hinv => ⟨trivial, fun r w hdoes _ => ?_⟩
  have hk : Kept u i f s s1 := .of_rely h.inside hrely
  rcases Kernel.does_openRead hdoes with ⟨rfl, rfl⟩ | ⟨ino, hino, rfl, rfl⟩
  · exact ⟨s1.2, .same hinv, keeps_pure fun s2 hrely2 _ => ⟨hk.trans (.of_rely hk.inside hrely2), nofun⟩⟩
  · obtain ⟨loc, -, hlook⟩ := Option.bind_eq_some_iff.mp hino
    obtain ⟨hmove, hk', hopened⟩ := open_section hinv (h.kept hk)
      (hinv.wf.entry_lt _ (hinv.wf.lookup_entries.mp hlook))
    refine ⟨s1.2, hmove, keeps_pure fun s2 hrely2 _ => ?_⟩
    have hk2 : Kept u i f _ s2 := .of_rely hk'.inside hrely2
    refine ⟨(hk.trans hk').trans hk2, ?_⟩
    rintro _ ⟨⟩
    exact ⟨_, rfl, hopened.kept hk2⟩

/-- Asking for the lock of an item without waiting. -/
theorem lockOld_keeps {mode : FlockMode} (h : At u i f n x d s₀ s) (ho : Opened i f n fd o s)
    (hinv : Inv u s) :
    Keeps u i op t (lockTheItem fd mode true) (fun r s' => At u i f n x d s₀ s' ∧ Still u s s' ∧
      ∃ o', o'.ino = o.ino ∧ o'.lock = (if r then some mode else o.lock) ∧ Opened i f n fd o' s') s := by
  have hflock : Keeps u i op t (call (.flock fd mode true)) (fun r s' => At u i f n x d s₀ s' ∧
      Still u s s' ∧ ∃ o', o'.ino = o.ino ∧ o'.lock = (if r then some mode else o.lock) ∧
        Opened i f n fd o' s') s := by
    refine keeps_call fun s1 hrely hinv1 => ⟨trivial, fun r w hdoes _ => ?_⟩
    have hk : Kept u i f s s1 := .of_rely h.inside hrely
    have ho1 := ho.kept hk
    rcases Kernel.exec_flock ho1.opened (exec_of_mayFail rfl hdoes) with ⟨rfl, hgrants, rfl⟩ | ⟨rfl, rfl, -⟩
    · -- the lock is granted, and nothing is claimed with this descriptor
      have hwf : (s1.1.setOpen fd (some { o with lock := some mode })).Wf :=
        hinv1.wf.setLock ho1.opened fun fd' y hy hne hino =>
          Kernel.compatible_of_granted ((Kernel.grants_iff hinv1.wf).mp hgrants fd' y hy hne hino)
      have hd : Usage.Differs s1.1 (s1.1.setOpen fd (some { o with lock := some mode })) fd
          (some { o with lock := some mode }) := ⟨rfl, rfl, rfl, rfl⟩
      obtain ⟨hmove, hat⟩ := ho1.toHeld.change hinv1 (h.kept hk) hwf hd rfl
        fun ⟨c, hc, hfd⟩ => absurd hfd (ho1.unclaimed c hc)
      have hopened : Opened i f n fd { o with lock := some mode }
          (s1.1.setOpen fd (some { o with lock := some mode }), s1.2) :=
        ⟨⟨Kernel.setOpen_opened_self, ho1.opener, ho1.new, ho1.ne⟩, ho1.unclaimed⟩
      refine ⟨s1.2, hmove, keeps_pure fun s2 hrely2 _ => ?_⟩
      have hk2 : Kept u i f _ s2 := .of_rely hat.inside hrely2
      exact ⟨hat.kept hk2, (hk.still.trans (.of_differs hd)).trans hk2.still, { o with lock := some mode }, rfl,
        rfl, hopened.kept hk2⟩
    · refine ⟨s1.2, .same hinv1, keeps_pure fun s2 hrely2 _ => ?_⟩
      have hk2 : Kept u i f s1 s2 := .of_rely hk.inside hrely2
      exact ⟨(h.kept hk).kept hk2, (hk.trans hk2).still, o, rfl, rfl, ho1.kept hk2⟩
  refine hflock.andThen hinv ?_
  rintro r s1 hinv1 ⟨hat, hstill, o', hino, hlock, ho'⟩
  cases r with
  | false =>
      refine keeps_pure fun s2 hrely2 _ => ?_
      have hk : Kept u i f s1 s2 := .of_rely hat.inside hrely2
      exact ⟨hat.kept hk, hstill.trans hk.still, o', hino, hlock, ho'.kept hk⟩
  | true =>
      refine (futimes_keeps hat.inside).andThen hinv1 fun r s2 _ hk => keeps_pure fun s3 hrely3 _ => ?_
      have hk3 := hk.trans (.of_rely hk.inside hrely3)
      exact ⟨hat.kept hk3, hstill.trans hk3.still, o', hino, hlock, ho'.kept hk3⟩

/-! ## Removing an item -/

/-- A size of a file that is an item, or zero. -/
def Weighs (u : Usage) (ino size : Nat) (s : View) : Prop :=
  size = 0 ∨ size ≤ (s.1.data ino).length ∧ ∃ loc, IsItem u.home loc ∧ (loc, ino) ∈ s.1.files

theorem sound_fstat_del {K K' : Kernel} {r : Option Nat} (hop : op = .del key)
    (h : sound u.home op t (.fstat fd) K r K' = true) : onItem u.home K fd = true ∨ r.getD 0 = 0 := by
  subst hop
  exact ((Bool.or_eq_true _ _).mp h).imp_right of_decide_eq_true

/-- `get_file_size` in `del`. -/
theorem weigh_keeps (hop : op = .del key) (hin : Inside u s.1 i f) (ho : Opened i f n fd o s) :
    Keeps u i op t (getFileSize fd) (fun v s' => Kept u i f s s' ∧ Weighs u o.ino v s') s := by
  refine keeps_call fun s1 hrely hinv => ⟨trivial, fun r w hdoes hsound => ?_⟩
  have hk : Kept u i f s s1 := .of_rely hin hrely
  have ho1 := (ho.kept hk).opened
  obtain rfl := eq_of_asks rfl hdoes
  have hsize : r.getD 0 = 0 ∨ r.getD 0 = (s1.1.data o.ino).length := by
    rcases Kernel.does_iff.mp hdoes with h | ⟨-, φ, h⟩
    · obtain ⟨rfl, -⟩ := Prod.mk.inj (Option.some.inj h)
      rw [ho1]
      exact .inr rfl
    · cases φ <;>
      · obtain ⟨rfl, -⟩ := Prod.mk.inj (Option.some.inj h)
        exact .inl rfl
  refine ⟨s1.2, .same hinv, keeps_pure fun s2 hrely2 _ => ?_⟩
  have hk2 : Kept u i f s1 s2 := .of_rely hk.inside hrely2
  refine ⟨hk.trans hk2, ?_⟩
  rcases hsize with hzero | hsize
  · exact .inl hzero
  · rcases sound_fstat_del hop hsound with hitem | hzero
    · rw [onItem, ho1, List.any_eq_true] at hitem
      obtain ⟨e, he, hdec⟩ := hitem
      obtain ⟨hino, hitem⟩ := of_decide_eq_true hdec
      rw [← hino] at hsize ⊢
      refine .inr ⟨?_, e.1, hitem, hk2.still.files.mem_iff.mpr he⟩
      rw [hsize]
      exact hk2.still.grows e he
    · exact .inl hzero

/-- What is at the path may be removed, and `size` is not more than what is then freed. -/
structure Removable (u : Usage) (path : Text) (size : Nat) (s : View) : Prop where
  notInfo : u.infoLoc ≠ resolve (cStr path)
  weighs : size = 0 ∨ IsItem u.home (resolve (cStr path)) ∧ ∀ ino, Placed path ino s →
    size ≤ (s.1.data ino).length ∧ ∀ c ∈ s.2.pending, c.ino ≠ ino

theorem Removable.still {path : Text} {size : Nat} (h : Removable u path size s) (hs : Still u s s') :
    Removable u path size s' where
  notInfo := h.notInfo
  weighs := by
    refine h.weighs.imp_right fun ⟨hitem, hfile⟩ => ⟨hitem, fun ino hino => ?_⟩
    have hmem := hs.files.mem_iff.mp hino
    obtain ⟨hsize, hfree⟩ := hfile ino hmem
    exact ⟨Nat.le_trans hsize (hs.grows _ hmem), fun c hc => hfree c (hs.pending c hc)⟩

theorem counted_dropFile_le (loc : List Text) : u.counted (s.1.dropFile loc, s.2) ≤ u.counted s := by
  have hsub : (s.1.dropFile loc).files.Sublist s.1.files := List.filter_sublist
  exact (hsub.map _).sum_le_sum fun _ _ => Nat.zero_le _

/-- `remove` in the section. -/
theorem remove_keeps {path : Text} {size : Nat} (h : At u i f n x d s₀ s) (hr : Removable u path size s) :
    Keeps u i op t (call (.remove path)) (fun r s' =>
      At u i f n x (if r then d + size else d) s₀ s' ∧ Trimmed u s s' ∧
        ∀ fd o, Opened i f n fd o s → Opened i f n fd o s') s := by
  refine keeps_call fun s1 hrely hinv => ⟨trivial, fun r w hdoes _ => ?_⟩
  have hk : Kept u i f s s1 := .of_rely h.inside hrely
  rcases Kernel.does_remove hdoes with ⟨rfl, rfl⟩ | ⟨loc, ino, hloc, hlook, rfl, rfl⟩
  · refine ⟨s1.2, .same hinv, keeps_pure fun s2 hrely2 _ => ?_⟩
    have hk2 := hk.trans (.of_rely hk.inside hrely2)
    exact ⟨h.kept hk2, hk2.still.trimmed, fun _ _ ho => ho.kept hk2⟩
  · have hfile := hinv.wf.lookup_files.mp hlook
    have hr1 := hr.still hk.still
    have h1 := h.kept hk
    rw [Kernel.locate_eq hloc] at hfile ⊢
    have hmove := Move.dropFile hinv h1.inside hr1.notInfo
    have hrecorded : u.recorded (s1.1.dropFile (resolve (cStr path)), s1.2) = u.recorded s1 :=
      Usage.recorded_dropFile hr1.notInfo s1.2
    have hat : At u i f n x (d + size) s₀ (s1.1.dropFile (resolve (cStr path)), s1.2) := by
      obtain ⟨y, hy, hi, hinfo, hlock⟩ := h1.inside
      have hne : decide (u.infoLoc ≠ resolve (cStr path)) = true := decide_eq_true hr1.notInfo
      refine ⟨⟨y, hy, hi, List.mem_filter.mpr ⟨hinfo, hne⟩, hlock⟩, ?_, h1.next, h1.own, h1.claims⟩
      have hroom := h1.room
      rw [hrecorded]
      rcases hr1.weighs with rfl | ⟨hitem, hweighs⟩
      · exact Nat.le_trans (Nat.add_le_add_right (counted_dropFile_le _) d) hroom
      · obtain ⟨hsize, hfree⟩ := hweighs ino hfile
        have hdrop := Usage.counted_dropFile hinv.wf hfile hitem hfree
        omega
    refine ⟨s1.2, hmove, keeps_pure fun s2 hrely2 _ => ?_⟩
    have hk2 : Kept u i f (s1.1.dropFile (resolve (cStr path)), s1.2) s2 := .of_rely hat.inside hrely2
    refine ⟨hat.kept hk2, hk.still.trimmed.trans (Trimmed.trans ?_ hk2.still.trimmed), fun fd o ho => ?_⟩
    · exact ⟨fun e he => ⟨List.mem_of_mem_filter he, Nat.le_refl _⟩, hrecorded⟩
    · have ho1 := ho.kept hk
      have ho2 : Opened i f n fd o (s1.1.dropFile (resolve (cStr path)), s1.2) :=
        ⟨⟨ho1.opened, ho1.opener, ho1.new, ho1.ne⟩, ho1.unclaimed⟩
      exact ho2.kept hk2

/-- An item that the client has locked and measured. -/
theorem Opened.removable {path : Text} {size : Nat} (h : Opened i f n fd o s) (hinv : Inv u s)
    (hin : Inside u s.1 i f) (hlock : o.lock = some .exclusive) (hplaced : Placed path o.ino s)
    (hweighs : Weighs u o.ino size s) : Removable u path size s where
  notInfo := by
    intro heq
    obtain ⟨y, hy, -, hinfo, hylock⟩ := hin
    have hino : u.IsInfo s.1 o.ino := by
      show (u.infoLoc, o.ino) ∈ s.1.files
      rw [heq]
      exact hplaced
    exact h.ne (eq_of_locked hinv.wf h.opened hy (hinv.wf.ino_eq hino hinfo) hlock hylock)
  weighs := by
    refine hweighs.imp_right fun ⟨hsize, loc, hitem, hmem⟩ => ?_
    have hloc := hinv.wf.eq_of_ino (Kernel.mem_entries_of_file hmem) (Kernel.mem_entries_of_file hplaced) rfl
    obtain rfl := (Prod.mk.inj hloc).1
    refine ⟨hitem, fun ino hino => ?_⟩
    obtain rfl := hinv.wf.ino_eq hino hplaced
    exact ⟨hsize, hinv.free h.opened hlock h.unclaimed⟩

/-! ## Subtracting -/

theorem At.updated {y : Option Nat} (h : At u i f n x d s₀ s) (hu : Updated u i f y s s') (hinv : Inv u s')
    (hy : ∀ fd, y = some fd → n ≤ fd ∨ x = some fd) : At u i f n x 0 s₀ s' where
  inside := hu.inside
  room := hinv.enough
  next := Nat.le_trans h.next hu.next
  own := fun g z hg hne hz hi => hu.own g z hne (h.own g z hg hne hz hi) hi
  claims := by
    intro c hc hlt hx
    rw [hu.claims c hc, h.claims c hc hlt hx]
    refine and_iff_left fun heq => ?_
    rcases hy c.fd heq with hle | hxc
    · exact absurd hlt (Nat.not_lt.mpr hle)
    · exact hx hxc

/-- The size of what has been removed is subtracted from the recorded size. -/
theorem subtract_keeps {recorded : Nat} (hop : Records op) (h : At u i f n x d s₀ s) (hinv : Inv u s)
    (hrecorded : recorded = u.recorded s) :
    Keeps u i op t (do
      let left ← call (.subtract recorded d)
      updateCacheInfoSize f left) (fun _ s' => Updated u i f none s s') s := by
  have hroom := h.room
  have hlt : u.recorded s < 2 ^ 64 := recordedSize_lt u.home s.1
  have hsafe : Safe (.subtract recorded d) := by
    show d ≤ recorded
    omega
  refine (ask_keeps (c := .subtract recorded d) rfl hsafe h.inside).andThen hinv ?_
  rintro left s1 hinv1 ⟨s2, -, hk2, hdoes, -, hk1⟩
  have hk := hk2.trans hk1
  have hleft : (recorded + 2 ^ 64 - d % 2 ^ 64) % 2 ^ 64 = recorded - d := by omega
  obtain ⟨rfl, -⟩ := Prod.mk.inj (Option.some.inj (exec_of_mayFail rfl hdoes))
  rw [hleft]
  refine (updateCacheInfoSize_keeps (x := none) hop hk.inside (by omega) nofun ?_).mono ?_
  · intro s3 hinv3 hk3
    have hroom3 := ((h.kept hk).kept hk3).room
    rw [(hk.trans hk3).still.recorded] at hroom3
    show u.counted s3 ≤ recorded - d
    omega
  · exact fun _ s3 _ hupdated => hk.updated hupdated

/-- A client keeps its new descriptor while the size is written. -/
theorem Opened.updated (h : Opened i f n fd o s) (hu : Updated u i f none s s') (hinv : Inv u s') :
    Opened i f n fd o s' where
  opened := hu.own fd o h.ne h.opened h.opener
  opener := h.opener
  new := h.new
  ne := h.ne
  unclaimed := by
    intro c hc hfd
    have hi := hinv.client_eq (hu.own fd o h.ne h.opened h.opener) h.opener hc hfd
    exact h.unclaimed c ((hu.claims c hi).mp hc).1 hfd

end Faulty

end Skunk.BesUtils
