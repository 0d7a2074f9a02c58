import Skunk.BesUtils.DraftStore

/-!
# One call

Every call that the rules allow keeps the files and the descriptors in step with what the processes have
in hand: first the calls that change one description, then those that open, create, close and remove.
-/

namespace Skunk.BesUtils

open Effect Posix

variable {dir : Text} {K₀ K K' : Kernel} {hs : Nat → Hand} {i : Nat} {h' : Hand} {fd : Nat} {o x : OpenFile}

/-! ## What a descriptor is for -/

theorem Descs.fd_of_info {h : Hand} (hd : Descs dir K₀ K hs i h) (hfd : fd ∈ h.infos) :
    (∀ p ∈ h.drafts, p.fd ≠ fd) ∧ ∀ y ∈ h.readings, y.fd ≠ fd := by
  refine ⟨Hand.ne_of_info hd.nodup hfd, ?_⟩
  rintro y hy rfl
  have hnodup := hd.nodup
  rw [Hand.fds, List.append_assoc] at hnodup
  exact (List.nodup_append.mp hnodup).2.2 y.fd hfd y.fd
    (List.mem_append_right _ (List.mem_map_of_mem hy)) rfl

theorem Descs.fd_of_draft {h : Hand} (hd : Descs dir K₀ K hs i h) {p : Draft} (hp : p ∈ h.drafts) :
    p.fd ∉ h.infos ∧ (∀ q ∈ h.drafts, q.fd = p.fd → q = p) ∧ ∀ y ∈ h.readings, y.fd ≠ p.fd := by
  refine ⟨fun hinfo => (hd.fd_of_info hinfo).1 p hp rfl, ?_, ?_⟩
  · intro q hq heq
    have hnodup := (List.nodup_append.mp hd.nodup).1
    exact List.inj_on_of_nodup_map (List.nodup_append.mp hnodup).2.1 hq hp heq
  · intro y hy heq
    exact Hand.ne_of_reading hd.nodup hy p hp heq.symm

/-- A call on one descriptor of process `i`. -/
theorem Sound.redescribe {φ : Draft → Draft} (hsound : Sound dir K₀ K hs) (ho : K.opened fd = some o)
    (hopener : o.opener = i) (hino : x.ino = o.ino) (hxopener : x.opener = i) (hsame : SameStore K K')
    (hself : K'.opened fd = some x) (hothers : ∀ g, g ≠ fd → K'.opened g = K.opened g)
    (hrev : Revised (hs i) h' φ) (hdata : WrittenTo K₀ K K' dir hs i φ)
    (hwhole : ∀ p ∈ (hs i).drafts, (φ p).stage = .closed → (φ p).Whole h'.sources)
    (hinside : ∀ f, h'.inside = some f → f ∈ (hs i).infos ∧
      (f = fd ∧ x.lock = some .exclusive ∨ f ≠ fd ∧ (hs i).inside = some f))
    (hdraft : ∀ p ∈ (hs i).drafts, (φ p).stage ≠ .closed → p.stage ≠ .closed ∧
      (p.fd = fd → x.offset = (φ p).offset ∧ ((φ p).stage = .locked → x.lock = some .exclusive)) ∧
      (p.fd ≠ fd → φ p = p))
    (hcreated : ∀ p ∈ (hs i).drafts, (φ p).stage = .created → p.stage = .created ∧ h'.inside ≠ none)
    (hreading : x.lock ≠ none → ∀ y ∈ (hs i).readings, y.fd = fd →
      ∀ j, ∀ p ∈ (hs j).drafts, p.ino = o.ino → p.stage = .closed) :
    Sound dir K₀ K' (Function.update hs i h') where
  toStored := hsound.toStored.revise hrev.toRedrafted hsame hdata hwhole
  descs := by
    have hon : Onward dir K K' hs (Function.update hs i h') := hrev.toRedrafted.onward hsame
    -- every description is of the file that it was of
    have hback : ∀ g y, K'.opened g = some y → ∃ y₀, K.opened g = some y₀ ∧ y₀.ino = y.ino := by
      intro g y hy
      by_cases hg : g = fd
      · subst hg
        rw [hself] at hy
        obtain rfl := Option.some.inj hy
        exact ⟨o, ho, hino.symm⟩
      · rw [hothers g hg] at hy
        exact ⟨y, hy, rfl⟩
    intro j
    by_cases hj : j = i
    · subst hj
      rw [Function.update_self]
      have hd := hsound.descs j
      refine ⟨?_, ?_, hrev.fds_sublist.nodup hd.nodup, ?_, ?_, ?_, ?_, ?_⟩
      · intro g hg
        by_cases hgfd : g = fd
        · rw [hgfd]
          exact ⟨x, hself, hxopener⟩
        · rw [hothers g hgfd]
          exact hd.own g (hrev.holds hg)
      · intro g hg
        exact Nat.lt_of_lt_of_le (hd.lt g (hrev.fds_sublist.subset hg)) hsame.nextFd
      · intro g hg y hy
        rw [hrev.infos] at hg
        obtain ⟨y₀, hy₀, hino₀⟩ := hback g y hy
        rw [hsame.isInfo, ← hino₀]
        exact hd.info g hg y₀ hy₀
      · intro f hf
        obtain ⟨hmem, ⟨rfl, hlock⟩ | ⟨hne, hold⟩⟩ := hinside f hf
        · exact ⟨by rwa [hrev.infos], x, hself, hlock⟩
        · obtain ⟨-, y, hy, hlock⟩ := hd.inside f hold
          exact ⟨by rwa [hrev.infos], y, by rwa [hothers f hne], hlock⟩
      · intro q hq hopen
        rw [hrev.drafts] at hq
        obtain ⟨p, hp, rfl⟩ := List.mem_map.mp hq
        obtain ⟨hpopen, hpself, hpothers⟩ := hdraft p hp hopen
        obtain ⟨y, hy, hyino, hyoffset, hylock⟩ := hd.draft p hp hpopen
        rw [(hrev.same p).1, (hrev.same p).2.1]
        by_cases hpfd : p.fd = fd
        · obtain ⟨hoffset, hlock⟩ := hpself hpfd
          rw [hpfd, ho] at hy
          obtain rfl := Option.some.inj hy
          exact ⟨x, by rw [hpfd, hself], hino.trans hyino, hoffset, hlock⟩
        · rw [hpothers hpfd]
          exact ⟨y, by rw [hothers p.fd hpfd, hy], hyino, hyoffset, hylock⟩
      · intro q hq hstage
        rw [hrev.drafts] at hq
        obtain ⟨p, hp, rfl⟩ := List.mem_map.mp hq
        obtain ⟨hpstage, hin⟩ := hcreated p hp hstage
        refine ⟨hin, fun g y hy hyino => ?_⟩
        rw [(hrev.same p).1]
        obtain ⟨y₀, hy₀, hino₀⟩ := hback g y hy
        exact (hd.created p hp hpstage).2 g y₀ hy₀ (by rw [hino₀, hyino, (hrev.same p).2.1])
      · intro y hy z hz
        have hy₀ := hrev.readings.subset hy
        by_cases hyfd : y.fd = fd
        · rw [hyfd, hself] at hz
          obtain rfl := Option.some.inj hz
          have hknown := hd.reading y hy₀ o (by rw [hyfd, ho])
          exact hknown.onward (hsound.wf.ino_lt fd o ho) hon hino fun hlock => hreading hlock y hy₀ hyfd
        · rw [hothers y.fd hyfd] at hz
          have hknown := hd.reading y hy₀ z hz
          exact hknown.onward (hsound.wf.ino_lt y.fd z hz) hon rfl hknown.locked
    · rw [Function.update_of_ne hj]
      refine (hsound.descs j).frame hsound.wf hon ?_ ?_
      · exact fun g hg => hothers g (hsound.holds_ne ho hopener hj hg)
      · intro p _ _ g y hy hyino
        obtain ⟨y₀, hy₀, hino₀⟩ := hback g y hy
        exact ⟨y₀, hy₀, hino₀.trans hyino⟩

/-- A call that changes no description and nothing that the files are known by. -/
theorem Sound.quiet (hsound : Sound dir K₀ K hs) (hsame : SameStore K K') (hdata : K'.data = K.data)
    (hopened : K'.opened = K.opened) (hinfos : h'.infos = (hs i).infos)
    (hinside : h'.inside = (hs i).inside) (hdrafts : h'.drafts = (hs i).drafts)
    (hreadings : h'.readings = (hs i).readings) (hsources : (hs i).sources ⊆ h'.sources) :
    Sound dir K₀ K' (Function.update hs i h') where
  toStored := by
    refine hsound.toStored.revise (.of_eq hdrafts hsources) hsame
      (hsound.toStored.written hdata fun _ _ => rfl) ?_
    exact fun p hp hstage => ((hsound.draft i p hp).whole hstage).mono hsources
  descs := by
    have hrev : Revised (hs i) h' id := ⟨.of_eq hdrafts hsources, hinfos, by rw [hreadings]⟩
    have hon : Onward dir K K' hs (Function.update hs i h') := hrev.toRedrafted.onward hsame
    have hframe : ∀ j, Descs dir K₀ K' (Function.update hs i h') j (hs j) := by
      intro j
      refine (hsound.descs j).frame hsound.wf hon (fun _ _ => by rw [hopened]) ?_
      intro p _ _ g y hy hyino
      rw [hopened] at hy
      exact ⟨y, hy, hyino⟩
    intro j
    by_cases hj : j = i
    · subst hj
      rw [Function.update_self]
      have hd := hframe j
      have hfds : h'.fds = (hs j).fds := by rw [Hand.fds, Hand.fds, hinfos, hdrafts, hreadings]
      refine ⟨?_, ?_, ?_, ?_, ?_, ?_, ?_, ?_⟩
      · exact fun g hg => hd.own g (hrev.holds hg)
      · rw [hfds]
        exact hd.lt
      · rw [hfds]
        exact hd.nodup
      · rw [hinfos]
        exact hd.info
      · rw [hinfos, hinside]
        exact hd.inside
      · rw [hdrafts]
        exact hd.draft
      · rw [hdrafts, hinside]
        exact hd.created
      · rw [hreadings]
        exact hd.reading
    · rw [Function.update_of_ne hj]
      exact hframe j

/-! ## Calls on one descriptor -/

theorem sameStore_setOpen {y : Option OpenFile} (hwf : (K.setOpen fd y).Wf) :
    SameStore K (K.setOpen fd y) :=
  ⟨hwf, List.Perm.refl _, rfl, rfl, Nat.le_refl _⟩

theorem setData_self (K : Kernel) (ino : Nat) : K.setData ino (K.data ino) = K := by
  show { K with data := Function.update K.data ino (K.data ino) } = K
  rw [Function.update_eq_self]

/-- What `edit` does to each file. -/
def editing (fd : Nat) (g : Draft → Draft) (p : Draft) : Draft := if p.fd = fd then g p else p

theorem editing_of_ne {g : Draft → Draft} {p : Draft} (hp : p.fd ≠ fd) : editing fd g p = p := if_neg hp

theorem editing_of_eq {g : Draft → Draft} {p : Draft} (hp : p.fd = fd) : editing fd g p = g p := if_pos hp

theorem revised_edit (h : Hand) {g : Draft → Draft}
    (hg : ∀ p, (g p).fd = p.fd ∧ (g p).ino = p.ino ∧ (g p).path = p.path ∧ (g p).op = p.op)
    (hclosed : ∀ p ∈ h.drafts, p.fd = fd → p.stage = .closed → (g p).stage = .closed) :
    Revised h (h.edit fd g) (editing fd g) where
  infos := rfl
  readings := List.Sublist.refl _
  drafts := rfl
  sources := fun _ hs => hs
  same := by
    intro p
    unfold editing
    split
    · exact hg p
    · exact ⟨rfl, rfl, rfl, rfl⟩
  closed := by
    intro p hp hstage
    unfold editing
    split
    next hfd => exact hclosed p hp hfd hstage
    · exact hstage

/-- Moving in `cache_info` or in a file that the process has created, and perhaps writing there. -/
theorem Sound.move (hsound : Sound dir K₀ K hs) {g : Draft → Draft}
    (hg : ∀ p, (g p).fd = p.fd ∧ (g p).ino = p.ino ∧ (g p).path = p.path ∧ (g p).op = p.op)
    (hgstage : ∀ p, (g p).stage = p.stage)
    (hfd : fd ∈ (hs i).infos ∨ ∃ p ∈ (hs i).drafts, p.fd = fd ∧ p.stage = .locked)
    (ho : K.opened fd = some o) (pos : Nat) (bytes : List UInt8)
    (hbytes : ∀ p ∈ (hs i).drafts, p.fd = fd → K.data o.ino = p.bytes → o.offset = p.offset →
      (g p).offset = pos ∧ (g p).bytes = bytes) :
    Sound dir K₀ ((K.setData o.ino bytes).setOpen fd (some { o with offset := pos }))
      (Function.update hs i ((hs i).edit fd g)) := by
  have hd := hsound.descs i
  -- a file with this descriptor is the one that has been locked
  have hmine : ∀ p ∈ (hs i).drafts, p.fd = fd →
      p.stage = .locked ∧ o.ino = p.ino ∧ o.offset = p.offset ∧ o.lock = some .exclusive := by
    intro p hp hpfd
    rcases hfd with hinfo | ⟨q, hq, rfl, hstage⟩
    · exact absurd hpfd ((hd.fd_of_info hinfo).1 p hp)
    · obtain rfl := (hd.fd_of_draft hq).2.1 p hp hpfd
      obtain ⟨y, hy, hino, hoffset, hlock⟩ := hd.draft p hp (by rw [hstage]; exact nofun)
      rw [ho] at hy
      obtain rfl := Option.some.inj hy
      exact ⟨hstage, hino, hoffset, hlock hstage⟩
  -- no other file is written to
  have hother : ∀ j, ∀ p ∈ (hs j).drafts, ¬ (j = i ∧ p.fd = fd) → p.ino ≠ o.ino := by
    intro j p hp hne heq
    rcases hfd with hinfo | ⟨q, hq, rfl, hstage⟩
    · apply (hsound.draft j p hp).notInfo
      rw [heq]
      exact hd.info fd hinfo o ho
    · obtain ⟨-, hino, -⟩ := hmine q hq rfl
      obtain ⟨rfl, rfl⟩ := hsound.distinct j i p hp q hq (heq.trans hino)
      exact hne ⟨rfl, rfl⟩
  have hopener : o.opener = i := by
    have hholds : (hs i).Holds fd := by
      rcases hfd with hinfo | ⟨q, hq, hqfd, hstage⟩
      · exact .inl hinfo
      · exact .inr (.inl ⟨q, hq, hqfd, by rw [hstage]; exact nofun⟩)
    obtain ⟨y, hy, hyi⟩ := hd.own fd hholds
    rw [ho] at hy
    rwa [Option.some.inj hy]
  have hnoReading : ∀ y ∈ (hs i).readings, y.fd ≠ fd := by
    rcases hfd with hinfo | ⟨q, hq, rfl, -⟩
    · exact (hd.fd_of_info hinfo).2
    · exact (hd.fd_of_draft hq).2.2
  have hwf := (hsound.wf.setData o.ino bytes).setOffset (K := K.setData o.ino bytes) ho pos
  refine hsound.redescribe (x := { o with offset := pos }) ho hopener rfl hopener
    ⟨hwf, List.Perm.refl _, rfl, rfl, Nat.le_refl _⟩ Kernel.setOpen_opened_self
    (fun g hg => Kernel.setOpen_opened_of_ne hg)
    (revised_edit (hs i) hg fun p _ _ hstage => by rw [hgstage, hstage]) ?_ ?_ ?_ ?_ ?_ ?_
  · refine ⟨?_, ?_, ?_⟩
    · intro p hp
      by_cases hpfd : p.fd = fd
      · obtain ⟨-, hino, hoffset, -⟩ := hmine p hp hpfd
        rw [editing_of_eq hpfd, ← hino]
        show (K.setData o.ino bytes).data o.ino = _
        rw [Kernel.setData_data_self]
        exact (hbytes p hp hpfd (by rw [hino]; exact (hsound.draft i p hp).data) hoffset).2.symm
      · rw [editing_of_ne hpfd]
        show (K.setData o.ino bytes).data p.ino = _
        rw [Kernel.setData_data_of_ne (hother i p hp fun h => hpfd h.2)]
        exact (hsound.draft i p hp).data
    · intro j hj p hp
      show (K.setData o.ino bytes).data p.ino = _
      exact Kernel.setData_data_of_ne (hother j p hp fun h => hj h.1)
    · intro ino hlt hinfo
      show (K.setData o.ino bytes).data ino = _
      apply Kernel.setData_data_of_ne
      rintro rfl
      rcases hfd with hinfo' | ⟨q, hq, hqfd, -⟩
      · exact hinfo (hd.info fd hinfo' o ho)
      · obtain ⟨-, hino, -⟩ := hmine q hq hqfd
        have hnew := (hsound.draft i q hq).new
        rw [← hino] at hnew
        exact absurd hlt (Nat.not_lt.mpr hnew)
  · intro p hp hstage
    by_cases hpfd : p.fd = fd
    · rw [editing_of_eq hpfd, hgstage, (hmine p hp hpfd).1] at hstage
      cases hstage
    · rw [editing_of_ne hpfd] at hstage ⊢
      exact (hsound.draft i p hp).whole hstage
  · intro f hf
    obtain ⟨hmem, y, hy, hlock⟩ := hd.inside f hf
    refine ⟨hmem, ?_⟩
    by_cases hffd : f = fd
    · subst hffd
      rw [ho] at hy
      obtain rfl := Option.some.inj hy
      exact .inl ⟨rfl, hlock⟩
    · exact .inr ⟨hffd, hf⟩
  · intro p hp hopen
    by_cases hpfd : p.fd = fd
    · obtain ⟨hstage, hino, hoffset, hlock⟩ := hmine p hp hpfd
      refine ⟨by rw [hstage]; exact nofun, fun _ => ?_, fun hne => absurd hpfd hne⟩
      rw [editing_of_eq hpfd]
      have hdata : K.data o.ino = p.bytes := by rw [hino]; exact (hsound.draft i p hp).data
      exact ⟨(hbytes p hp hpfd hdata hoffset).1.symm, fun _ => hlock⟩
    · rw [editing_of_ne hpfd] at hopen
      exact ⟨hopen, fun heq => absurd heq hpfd, fun _ => editing_of_ne hpfd⟩
  · intro p hp hstage
    by_cases hpfd : p.fd = fd
    · rw [editing_of_eq hpfd, hgstage, (hmine p hp hpfd).1] at hstage
      cases hstage
    · rw [editing_of_ne hpfd] at hstage
      exact ⟨hstage, (hd.created p hp hstage).1⟩
  · exact fun _ y hy hyfd => absurd hyfd (hnoReading y hy)

/-! ## Locks -/

theorem Revised.inside (h : Hand) (inside : Option Nat) : Revised h { h with inside := inside } id :=
  ⟨.of_eq rfl fun _ hs => hs, rfl, List.Sublist.refl _⟩

theorem Sound.opener_of_holds (hsound : Sound dir K₀ K hs) (hfd : (hs i).Holds fd)
    (ho : K.opened fd = some o) : o.opener = i := by
  obtain ⟨y, hy, hyi⟩ := (hsound.descs i).own fd hfd
  rw [ho] at hy
  rwa [Option.some.inj hy]

/-- The process locks the cache, or unlocks it. -/
theorem Sound.relockInfo (hsound : Sound dir K₀ K hs) (hfd : fd ∈ (hs i).infos)
    (ho : K.opened fd = some o) {l : Option FlockMode} {inside : Option Nat}
    (hwf : (K.setOpen fd (some { o with lock := l })).Wf) (hsettled : (hs i).Settled)
    (hinside : inside = some fd ∧ l = some .exclusive ∨ inside = none) :
    Sound dir K₀ (K.setOpen fd (some { o with lock := l }))
      (Function.update hs i { hs i with inside := inside }) := by
  have hd := hsound.descs i
  obtain ⟨hnoDraft, hnoReading⟩ := hd.fd_of_info hfd
  have hopener := hsound.opener_of_holds (.inl hfd) ho
  refine hsound.redescribe (x := { o with lock := l }) ho hopener rfl hopener (sameStore_setOpen hwf)
    Kernel.setOpen_opened_self (fun g hg => Kernel.setOpen_opened_of_ne hg) (.inside (hs i) inside)
    (hsound.toStored.written rfl fun _ _ => rfl) (fun p hp => (hsound.draft i p hp).whole) ?_ ?_ ?_ ?_
  · rintro f hf
    rcases hinside with ⟨hin, hl⟩ | hout
    · obtain rfl : fd = f := Option.some.inj (hin.symm.trans hf)
      exact ⟨hfd, .inl ⟨rfl, hl⟩⟩
    · exact nomatch hout.symm.trans hf
  · exact fun p hp hopen => ⟨hopen, fun heq => absurd heq (hnoDraft p hp), fun _ => rfl⟩
  · exact fun p hp hstage => absurd hstage (hsettled p hp)
  · exact fun _ y hy hyfd => absurd hyfd (hnoReading y hy)

/-- While a process is outside, what it has created is locked. -/
theorem Sound.settled_of_outside (hsound : Sound dir K₀ K hs) (hout : (hs i).inside = none) :
    (hs i).Settled :=
  fun p hp hstage => ((hsound.descs i).created p hp hstage).1 hout

/-- The process locks a file that it has just created. -/
theorem Sound.lockDraft (hsound : Sound dir K₀ K hs) {p : Draft} (hp : p ∈ (hs i).drafts)
    (hstage : p.stage = .created) (ho : K.opened p.fd = some o)
    (hwf : (K.setOpen p.fd (some { o with lock := some .exclusive })).Wf) :
    Sound dir K₀ (K.setOpen p.fd (some { o with lock := some .exclusive }))
      (Function.update hs i ((hs i).edit p.fd fun p => { p with stage := .locked })) := by
  have hd := hsound.descs i
  obtain ⟨hnoInfo, honly, hnoReading⟩ := hd.fd_of_draft hp
  have hholds : (hs i).Holds p.fd := .inr (.inl ⟨p, hp, rfl, by rw [hstage]; exact nofun⟩)
  have hopener := hsound.opener_of_holds hholds ho
  have hrev : Revised (hs i) ((hs i).edit p.fd fun p => { p with stage := .locked })
      (editing p.fd fun p => { p with stage := .locked }) := by
    refine revised_edit (hs i) (fun _ => ⟨rfl, rfl, rfl, rfl⟩) fun q hq hqfd hclosed => ?_
    rw [honly q hq hqfd, hstage] at hclosed
    cases hclosed
  refine hsound.redescribe (x := { o with lock := some .exclusive }) ho hopener rfl hopener
    (sameStore_setOpen hwf) Kernel.setOpen_opened_self (fun g hg => Kernel.setOpen_opened_of_ne hg) hrev
    (hsound.toStored.written rfl ?_) ?_ ?_ ?_ ?_ ?_
  · intro q _
    unfold editing
    split
    · rfl
    · rfl
  · intro q hq hclosed
    by_cases hqfd : q.fd = p.fd
    · rw [editing_of_eq hqfd] at hclosed
      cases hclosed
    · rw [editing_of_ne hqfd] at hclosed ⊢
      exact (hsound.draft i q hq).whole hclosed
  · intro f hf
    refine ⟨(hd.inside f hf).1, .inr ⟨?_, hf⟩⟩
    rintro rfl
    exact hnoInfo (hd.inside p.fd hf).1
  · intro q hq hopen
    by_cases hqfd : q.fd = p.fd
    · obtain rfl := honly q hq hqfd
      obtain ⟨y, hy, -, hoffset, -⟩ := hd.draft q hq (by rw [hstage]; exact nofun)
      rw [ho] at hy
      obtain rfl := Option.some.inj hy
      rw [editing_of_eq rfl]
      exact ⟨by rw [hstage]; exact nofun, fun _ => ⟨hoffset, fun _ => rfl⟩, fun hne => absurd rfl hne⟩
    · rw [editing_of_ne hqfd] at hopen
      exact ⟨hopen, fun heq => absurd heq hqfd, fun _ => editing_of_ne hqfd⟩
  · intro q hq hcreated
    by_cases hqfd : q.fd = p.fd
    · rw [editing_of_eq hqfd] at hcreated
      cases hcreated
    · rw [editing_of_ne hqfd] at hcreated
      exact ⟨hcreated, (hd.created q hq hcreated).1⟩
  · exact fun _ y hy hyfd => absurd hyfd (hnoReading y hy)

/-- The process locks a file that it has opened. -/
theorem Sound.lockReading (hsound : Sound dir K₀ K hs) {y : Reading} (hy : y ∈ (hs i).readings)
    (hbusy : (hs i).Busy) (ho : K.opened y.fd = some o) {mode : FlockMode}
    (hgrants : K.grants y.fd o.ino mode = true)
    (hwf : (K.setOpen y.fd (some { o with lock := some mode })).Wf) :
    Sound dir K₀ (K.setOpen y.fd (some { o with lock := some mode })) hs := by
  have hd := hsound.descs i
  have hholds : (hs i).Holds y.fd := .inr (.inr ⟨y, hy, rfl⟩)
  have hopener := hsound.opener_of_holds hholds ho
  have hnoDraft : ∀ p ∈ (hs i).drafts, p.fd ≠ y.fd := Hand.ne_of_reading hd.nodup hy
  have hupdate : Function.update hs i (hs i) = hs := Function.update_eq_self i hs
  rw [← hupdate]
  refine hsound.redescribe (x := { o with lock := some mode }) ho hopener rfl hopener
    (sameStore_setOpen hwf) Kernel.setOpen_opened_self (fun g hg => Kernel.setOpen_opened_of_ne hg)
    (.refl (hs i)) (hsound.toStored.written rfl fun _ _ => rfl)
    (fun p hp => (hsound.draft i p hp).whole) ?_ ?_ ?_ ?_
  · intro f hf
    refine ⟨(hd.inside f hf).1, .inr ⟨?_, hf⟩⟩
    rintro rfl
    exact (hd.fd_of_info (hd.inside y.fd hf).1).2 y hy rfl
  · exact fun p hp hopen => ⟨hopen, fun heq => absurd heq (hnoDraft p hp), fun _ => rfl⟩
  · exact fun p hp hstage => absurd hstage (hbusy.2 p hp)
  · intro _ _ _ _ j p hp hino
    have hset := hsound.settled_of_busy hbusy j hp
    by_contra hopen
    obtain ⟨z, hz, hzino, -, hexcl⟩ := (hsound.descs j).draft p hp hopen
    have hlocked : p.stage = .locked := by
      cases hstage : p.stage with
      | created => exact absurd hstage hset
      | locked => rfl
      | closed => exact absurd hstage hopen
    have hlock := hexcl hlocked
    -- the lock is not granted beside an exclusive one
    have hne : p.fd ≠ y.fd := by
      by_cases hj : j = i
      · subst hj
        exact hnoDraft p hp
      · exact hsound.holds_ne ho hopener hj (.inr (.inl ⟨p, hp, rfl, hopen⟩))
    rcases (Kernel.grants_iff hsound.wf).mp hgrants p.fd z hz hne (hzino.trans hino) with hnone | ⟨hsh, -⟩
    · rw [hlock] at hnone
      cases hnone
    · rw [hlock] at hsh
      cases hsh

/-! ## Opening and closing -/

/-- A descriptor is closed. -/
theorem Sound.close (hsound : Sound dir K₀ K hs)
    (hfd : (∃ y ∈ (hs i).readings, y.fd = fd) ∨
      ∃ p ∈ (hs i).drafts, p.fd = fd ∧ p.stage = .locked ∧ p.Whole (hs i).sources) (r : Bool) :
    Sound dir K₀ (K.setOpen fd none) (Function.update hs i ((hs i).next dir K (.close fd) r)) := by
  have hd := hsound.descs i
  have hholds : (hs i).Holds fd := by
    rcases hfd with hy | ⟨p, hp, hpfd, hstage, -⟩
    · exact .inr (.inr hy)
    · exact .inr (.inl ⟨p, hp, hpfd, by rw [hstage]; exact nofun⟩)
  obtain ⟨o, ho, hopener⟩ := hd.own fd hholds
  have hnoInfo : fd ∉ (hs i).infos := by
    rcases hfd with ⟨y, hy, rfl⟩ | ⟨p, hp, rfl, -⟩
    · exact fun hinfo => (hd.fd_of_info hinfo).2 y hy rfl
    · exact (hd.fd_of_draft hp).1
  have hrev : Revised (hs i) ((hs i).next dir K (.close fd) r)
      (editing fd fun p => { p with stage := .closed }) := by
    have hedit : Revised (hs i) ((hs i).edit fd fun p => { p with stage := .closed })
        (editing fd fun p => { p with stage := .closed }) :=
      revised_edit (hs i) (fun _ => ⟨rfl, rfl, rfl, rfl⟩) fun _ _ _ _ => rfl
    exact ⟨⟨rfl, fun _ hs => hs, hedit.same, hedit.closed⟩, rfl, List.filter_sublist⟩
  have hwf : (K.setOpen fd none).Wf := hsound.wf.setOpen nofun nofun
  have hsame := sameStore_setOpen hwf
  have hon : Onward dir K (K.setOpen fd none) hs
      (Function.update hs i ((hs i).next dir K (.close fd) r)) := hrev.toRedrafted.onward hsame
  have hback : ∀ g y, (K.setOpen fd none).opened g = some y → g ≠ fd ∧ K.opened g = some y := by
    intro g y hy
    by_cases hg : g = fd
    · subst hg
      rw [Kernel.setOpen_opened_self] at hy
      cases hy
    · rw [Kernel.setOpen_opened_of_ne hg] at hy
      exact ⟨hg, hy⟩
  refine ⟨hsound.toStored.revise hrev.toRedrafted hsame (hsound.toStored.written rfl ?_) ?_, fun j => ?_⟩
  · intro q _
    unfold editing
    split
    · rfl
    · rfl
  · intro q hq hclosed
    by_cases hqfd : q.fd = fd
    · rw [editing_of_eq hqfd]
      rcases hfd with ⟨y, hy, rfl⟩ | ⟨p, hp, rfl, -, hwhole⟩
      · exact absurd hqfd (Hand.ne_of_reading hd.nodup hy q hq)
      · obtain rfl := (hd.fd_of_draft hp).2.1 q hq hqfd
        exact hwhole
    · rw [editing_of_ne hqfd] at hclosed ⊢
      exact (hsound.draft i q hq).whole hclosed
  by_cases hj : j = i
  · subst hj
    rw [Function.update_self]
    -- what the process still holds is none of what it has closed
    have hne : ∀ g, ((hs j).next dir K (.close fd) r).Holds g → g ≠ fd := by
      rintro g hg rfl
      rcases hg with hg | ⟨q, hq, hqfd, hopen⟩ | ⟨y, hy, hyfd⟩
      · exact hnoInfo hg
      · obtain ⟨p, hp, rfl⟩ := List.mem_map.mp hq
        by_cases hpfd : p.fd = g
        · rw [if_pos hpfd] at hopen
          exact hopen rfl
        · rw [if_neg hpfd] at hqfd
          exact hpfd hqfd
      · obtain ⟨-, hne⟩ := List.mem_filter.mp hy
        rw [decide_eq_true_eq] at hne
        exact hne hyfd
    have hkept : ∀ q ∈ ((hs j).next dir K (.close fd) r).drafts, q.stage ≠ .closed →
        q ∈ (hs j).drafts ∧ q.fd ≠ fd := by
      intro q hq hopen
      obtain ⟨p, hp, rfl⟩ := List.mem_map.mp hq
      by_cases hpfd : p.fd = fd
      · rw [if_pos hpfd] at hopen
        exact absurd rfl hopen
      · rw [if_neg hpfd]
        exact ⟨hp, hpfd⟩
    refine ⟨?_, ?_, hrev.fds_sublist.nodup hd.nodup, ?_, ?_, ?_, ?_, ?_⟩
    · intro g hg
      rw [Kernel.setOpen_opened_of_ne (hne g hg)]
      exact hd.own g (hrev.holds hg)
    · exact fun g hg => hd.lt g (hrev.fds_sublist.subset hg)
    · intro g hg y hy
      exact hd.info g hg y (hback g y hy).2
    · intro f hf
      obtain ⟨hmem, y, hy, hlock⟩ := hd.inside f hf
      refine ⟨hmem, y, ?_, hlock⟩
      rwa [Kernel.setOpen_opened_of_ne]
      rintro rfl
      exact hnoInfo hmem
    · intro q hq hopen
      obtain ⟨hmem, hqfd⟩ := hkept q hq hopen
      rw [Kernel.setOpen_opened_of_ne hqfd]
      exact hd.draft q hmem hopen
    · intro q hq hcreated
      obtain ⟨hmem, hqfd⟩ := hkept q hq (by rw [hcreated]; exact nofun)
      obtain ⟨hin, hsole⟩ := hd.created q hmem hcreated
      exact ⟨hin, fun g y hy => hsole g y (hback g y hy).2⟩
    · intro y hy z hz
      have hy₀ := (List.mem_filter.mp hy).1
      have hknown := hd.reading y hy₀ z (hback y.fd z hz).2
      exact hknown.onward (hsound.wf.ino_lt y.fd z (hback y.fd z hz).2) hon rfl hknown.locked
  · rw [Function.update_of_ne hj]
    refine (hsound.descs j).frame hsound.wf hon ?_ ?_
    · exact fun g hg => Kernel.setOpen_opened_of_ne (hsound.holds_ne ho hopener hj hg)
    · exact fun _ _ _ g y hy hino => ⟨y, (hback g y hy).2, hino⟩

end Skunk.BesUtils
