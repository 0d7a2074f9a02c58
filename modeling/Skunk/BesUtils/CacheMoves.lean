import Skunk.BesUtils.CacheProtocol

/-!
# What each call does to a shared cache

For each kind of call that an operation makes: if the client may make it, the invariant holds
afterwards, and the other clients have lost nothing that they rely on (`Move`). The first section says
how the sizes change.
-/

namespace Skunk.BesUtils

open Effect Posix

namespace Usage

variable {u : Usage} {s : View} {i : Nat}

/-! ## Sizes -/

theorem files_nodup {K : Kernel} (h : K.Wf) : K.files.Nodup := h.files_locations.of_map _

/-- The name of an item, from its place. -/
theorem isItem_name {n : Text} (hn : n ≠ cacheInfoName) : IsItem u.home (u.home ++ [n]) :=
  isItem_iff.mpr ⟨n, rfl, hn⟩

theorem not_isItem_infoLoc : ¬ IsItem u.home u.infoLoc := fun h => h.2.2 rfl

/-- `cache_info` is none of the items. -/
theorem Inv.ne_info (h : u.Inv s) {e : List Text × Nat} (he : e ∈ s.1.files)
    (hitem : IsItem u.home e.1) : ¬ u.IsInfo s.1 e.2 := by
  intro hinfo
  have heq := h.wf.eq_of_ino (Kernel.mem_entries_of_file he) (Kernel.mem_entries_of_file hinfo) rfl
  apply not_isItem_infoLoc (u := u)
  rwa [heq] at hitem

theorem recorded_eq (hwf : s.1.Wf) {ino : Nat} (hinfo : u.IsInfo s.1 ino) :
    u.recorded s = sizeIn (s.1.data ino) := by
  have hlook : s.1.files.lookup (u.home ++ [cacheInfoName]) = some ino := hwf.lookup_files.mpr hinfo
  rw [recorded, recordedSize, hlook]

/-- Without `cache_info` there is no recorded size. -/
theorem recorded_eq_zero (hwf : s.1.Wf) (hinfo : ∀ ino, ¬ u.IsInfo s.1 ino) : u.recorded s = 0 := by
  have hlook : s.1.files.lookup (u.home ++ [cacheInfoName]) = none := by
    rw [Option.eq_none_iff_forall_ne_some]
    intro ino hino
    exact hinfo ino (hwf.lookup_files.mp hino)
  rw [recorded, recordedSize, hlook]

/-- No file system holds more than all its files. -/
theorem itemBytes_le_used (home : List Text) (K : Kernel) : itemBytes home K ≤ K.used := by
  rw [itemBytes, Kernel.used]
  apply List.sum_le_sum
  intro e _
  split
  · exact Nat.le_refl _
  · exact Nat.zero_le _

theorem counted_le (s : View) : u.counted s ≤ itemBytes u.home s.1 := by
  rw [counted, itemBytes]
  apply List.sum_le_sum
  intro e _
  rw [weight]
  split
  next h => rw [if_pos h.1]
  · exact Nat.zero_le _

section Data

variable {ino : Nat} {bytes : List UInt8}

/-- Writing to a file that does not count. -/
theorem counted_setData_of_not (h : ∀ e ∈ s.1.files, e.2 = ino →
    ¬ (IsItem u.home e.1 ∧ ∀ c ∈ s.2.pending, c.ino ≠ e.2)) :
    u.counted (s.1.setData ino bytes, s.2) = u.counted s := by
  rw [counted, counted]
  congr 1
  apply List.map_congr_left
  intro e he
  rw [weight, weight]
  by_cases hino : e.2 = ino
  · rw [if_neg (h e he hino), if_neg (h e he hino)]
  · rw [Kernel.setData_data_of_ne hino]

/-- Writing to an item that counts. -/
theorem counted_setData (hwf : s.1.Wf) {loc : List Text} (he : (loc, ino) ∈ s.1.files)
    (hitem : IsItem u.home loc) (hfree : ∀ c ∈ s.2.pending, c.ino ≠ ino) :
    u.counted (s.1.setData ino bytes, s.2) + (s.1.data ino).length =
      u.counted s + bytes.length := by
  have hsum := sum_change (u.weight s) (u.weight (s.1.setData ino bytes, s.2)) (files_nodup hwf) he ?_
  · simp only [weight, if_pos (And.intro hitem hfree), Kernel.setData_data_self] at hsum
    exact hsum
  · intro x hx hne
    have hino : x.2 ≠ ino := fun hino => hne
      (hwf.eq_of_ino (Kernel.mem_entries_of_file hx) (Kernel.mem_entries_of_file he) hino)
    rw [weight, weight, Kernel.setData_data_of_ne hino]

theorem itemBytes_setData_of_not (home : List Text)
    (h : ∀ e ∈ s.1.files, e.2 = ino → ¬ IsItem home e.1) :
    itemBytes home (s.1.setData ino bytes) = itemBytes home s.1 := by
  rw [itemBytes, itemBytes]
  congr 1
  apply List.map_congr_left
  intro e he
  by_cases hino : e.2 = ino
  · rw [if_neg (h e he hino), if_neg (h e he hino)]
  · rw [Kernel.setData_data_of_ne hino]

theorem recorded_setData_of_ne (h : ¬ u.IsInfo s.1 ino) (hwf : s.1.Wf) (g : Ghost) :
    u.recorded (s.1.setData ino bytes, g) = u.recorded s := by
  show recordedSize u.home (s.1.setData ino bytes) = recordedSize u.home s.1
  have hfiles : (s.1.setData ino bytes).files = s.1.files := rfl
  rw [recordedSize, recordedSize, hfiles]
  cases hlook : s.1.files.lookup (u.home ++ [cacheInfoName]) with
  | none => rfl
  | some ino' =>
      have hinfo : u.IsInfo s.1 ino' := hwf.lookup_files.mp hlook
      have hne : ino' ≠ ino := fun hne => h (hne ▸ hinfo)
      show sizeIn ((s.1.setData ino bytes).data ino') = _
      rw [Kernel.setData_data_of_ne hne]

end Data

section Files

variable {loc : List Text}

/-- A new file is empty. -/
theorem counted_addFile (hwf : s.1.Wf) : u.counted (s.1.addFile i loc, s.2) = u.counted s := by
  have hrest : (s.1.files.map (u.weight (s.1.addFile i loc, s.2))) = s.1.files.map (u.weight s) := by
    apply List.map_congr_left
    intro e he
    have hne : e.2 ≠ s.1.nextIno :=
      Nat.ne_of_lt (hwf.entry_lt e (Kernel.mem_entries_of_file he))
    rw [weight, weight, Kernel.addFile_data_of_ne hne]
  have hnew : u.weight (s.1.addFile i loc, s.2) (loc, s.1.nextIno) = 0 := by
    simp [weight]
  rw [counted, counted, ← hrest]
  show (u.weight (s.1.addFile i loc, s.2) (loc, s.1.nextIno) :: s.1.files.map _).sum = _
  rw [List.sum_cons, hnew, Nat.zero_add]

theorem itemBytes_addFile (hwf : s.1.Wf) (home : List Text) :
    itemBytes home (s.1.addFile i loc) = itemBytes home s.1 := by
  have hrest : (s.1.files.map fun e =>
      if IsItem home e.1 then ((s.1.addFile i loc).data e.2).length else 0) =
      s.1.files.map fun e => if IsItem home e.1 then (s.1.data e.2).length else 0 := by
    apply List.map_congr_left
    intro e he
    have hne : e.2 ≠ s.1.nextIno :=
      Nat.ne_of_lt (hwf.entry_lt e (Kernel.mem_entries_of_file he))
    rw [Kernel.addFile_data_of_ne hne]
  rw [itemBytes, itemBytes, ← hrest]
  show (((loc, s.1.nextIno) :: s.1.files).map _).sum = _
  rw [List.map_cons, List.sum_cons]
  simp

theorem sum_map_filter {α : Type} (l : List α) (p : α → Bool) (w : α → Nat) :
    ((l.filter p).map w).sum = (l.map fun e => if p e then w e else 0).sum := by
  induction l with
  | nil => rfl
  | cons e l ih =>
      rw [List.filter_cons, List.map_cons, List.sum_cons, ← ih]
      split
      · rw [List.map_cons, List.sum_cons]
      · rw [Nat.zero_add]

/-- Removing an item that counts. -/
theorem counted_dropFile (hwf : s.1.Wf) {ino : Nat} (he : (loc, ino) ∈ s.1.files)
    (hitem : IsItem u.home loc) (hfree : ∀ c ∈ s.2.pending, c.ino ≠ ino) :
    u.counted (s.1.dropFile loc, s.2) + (s.1.data ino).length = u.counted s := by
  have hsum := sum_change (u.weight s) (fun e => if e.1 ≠ loc then u.weight s e else 0)
    (files_nodup hwf) he ?_
  · have hfilter : u.counted (s.1.dropFile loc, s.2) =
        (s.1.files.map fun e => if e.1 ≠ loc then u.weight s e else 0).sum := by
      show ((s.1.files.filter fun e => e.1 ≠ loc).map (u.weight s)).sum = _
      rw [sum_map_filter]
      simp only [decide_eq_true_eq]
    simp only [weight, if_pos (And.intro hitem hfree), ne_eq, not_true, if_false, Nat.add_zero]
      at hsum
    rw [hfilter]
    exact hsum
  · intro x hx hne
    have hloc : x.1 ≠ loc := by
      intro hloc
      have hx' : (loc, x.2) ∈ s.1.files := by
        rw [← hloc]
        exact hx
      exact hne (Prod.ext hloc (hwf.ino_eq hx' he))
    exact if_pos hloc

theorem itemBytes_dropFile_le (home : List Text) :
    itemBytes home (s.1.dropFile loc) ≤ itemBytes home s.1 := by
  have hsub : (s.1.dropFile loc).files.Sublist s.1.files := List.filter_sublist
  exact (hsub.map _).sum_le_sum fun _ _ => Nat.zero_le _

theorem lookup_filter {l : List (List Text × Nat)} {a : List Text} (h : a ≠ loc) :
    (l.filter fun e => e.1 ≠ loc).lookup a = l.lookup a := by
  induction l with
  | nil => rfl
  | cons e l ih =>
      obtain ⟨b, n⟩ := e
      rw [List.filter_cons, List.lookup_cons]
      by_cases hb : b = loc
      · have hab : (a == b) = false := by
          rw [hb]
          simpa using h
        simp only [hb, ne_eq, not_true, decide_false, Bool.false_eq_true, if_false]
        rw [ih, ← hb, hab]
      · simp only [ne_eq, hb, not_false_eq_true, decide_true, if_true]
        rw [List.lookup_cons, ih]

theorem recorded_dropFile (hloc : u.infoLoc ≠ loc) (g : Ghost) :
    u.recorded (s.1.dropFile loc, g) = u.recorded s := by
  show recordedSize u.home (s.1.dropFile loc) = recordedSize u.home s.1
  have hlook : (s.1.dropFile loc).files.lookup (u.home ++ [cacheInfoName]) =
      s.1.files.lookup (u.home ++ [cacheInfoName]) := lookup_filter hloc
  rw [recordedSize, recordedSize, hlook]
  rfl

end Files

/-! ## Moves -/

/-- A call of client `i` that keeps to the protocol. -/
structure Move (u : Usage) (i : Nat) (c : SysCall) (r : c.Reply) (s s' : View) : Prop where
  inv : u.Inv s'
  mark : u.Mark i c r s s'
  others : ∀ j, j ≠ i → u.Rely j s s'

/-- The client's own descriptor, and no shared one. -/
structure Own (u : Usage) (i fd : Nat) (o : OpenFile) (s : View) : Prop where
  opened : s.1.opened fd = some o
  opener : o.opener = i
  unshared : u.shared ≠ some fd

section Moves

variable {fd f : Nat} {o : OpenFile} {K' : Kernel} {o' : Option OpenFile}

/-- The lock of the cache is held through a descriptor of the holder, or a shared one. -/
theorem Inv.opened_eq (h : u.Inv s) {j g : Nat} (hj : s.2.holder = some (j, g)) (hne : j ≠ i)
    (hd : Differs s.1 K' fd o') (hown : Own u i fd o s) : K'.opened g = s.1.opened g := by
  apply hd.opened_ne
  rintro rfl
  obtain ⟨x, hx, -, -, hwho⟩ := h.holds j g hj
  rw [hown.opened] at hx
  obtain rfl := Option.some.inj hx
  rcases hwho with hsh | ⟨-, hopener⟩
  · exact hown.unshared hsh
  · exact hne (hopener.symm.trans hown.opener)

/-- A call that changes nothing. -/
theorem Move.same {c : SysCall} {r : c.Reply} (h : u.Inv s) (hmark : u.Mark i c r s s) :
    u.Move i c r s s :=
  ⟨h, hmark, fun j _ => Rely.refl j s⟩

/-- Moving in a file of one's own, or in `cache_info` while one holds its lock. -/
theorem Move.offset {c : SysCall} {r : c.Reply} (h : u.Inv s) (ho : s.1.opened fd = some o)
    (hwho : o.opener = i ∧ u.shared ≠ some fd ∨ s.2.holder = some (i, fd)) (pos : Nat)
    (hmark : u.Mark i c r s (s.1.setOpen fd (some { o with offset := pos }), s.2)) :
    u.Move i c r s (s.1.setOpen fd (some { o with offset := pos }), s.2) := by
  have hd : Differs s.1 (s.1.setOpen fd (some { o with offset := pos })) fd
      (some { o with offset := pos }) := ⟨rfl, rfl, rfl, rfl⟩
  have hsame : ∀ y, s.1.opened fd = some y →
      ∃ x, some { o with offset := pos } = some x ∧ SameFile y x := by
    intro y hy
    rw [ho] at hy
    obtain rfl := Option.some.inj hy
    exact ⟨_, rfl, rfl, rfl, rfl⟩
  have hspares : u.Spares i s (s.1.setOpen fd (some { o with offset := pos }), s.2) := by
    refine Spares.of_differs hd ?_ ?_
    · intro y hy
      rw [ho] at hy
      obtain rfl := Option.some.inj hy
      rcases hwho with ⟨hi, -⟩ | hin
      · exact .inl hi
      · obtain ⟨x, hx, -, -, hopener⟩ := h.holds i fd hin
        rw [ho] at hx
        obtain rfl := Option.some.inj hx
        -- the descriptor for `cache_info` is one's own, or the one that all processes share
        rcases hopener with hsh | ⟨-, hi⟩
        · exact .inr hsh
        · exact .inl hi
    · intro _ y hy
      obtain ⟨x, hx, hino, -⟩ := hsame y hy
      exact ⟨x, hx, hino⟩
  refine ⟨h.of_differs (h.wf.setOffset ho pos) hd ?_ fun _ => hsame, hmark, ?_⟩
  · rintro x ⟨⟩ hinfo hlock
    exact h.locked fd o ho hinfo hlock
  · intro j hj
    rcases hwho with ⟨hi, hsh⟩ | hin
    · refine hspares.rely_of_calm hj rfl (Calm.of_differs hd ?_) ?_
      · rintro x ⟨⟩ -
        exact ⟨o, ho, rfl⟩
      · exact fun g hg => h.opened_eq hg hj hd ⟨ho, hi, hsh⟩
    · exact hspares.rely_of_section hin (.inl hin) hj

/-- A claim belongs to an exclusive lock. -/
theorem Inv.claim_locked (h : u.Inv s) (hacc : u.accounts = true) (ho : s.1.opened fd = some o)
    {c : Pending} (hc : c ∈ s.2.pending) (hfd : c.fd = fd) : o.lock = some .exclusive := by
  obtain ⟨x, -, hx, -, -, -, hlock, -⟩ := (h.books hacc).claim c hc
  rw [hfd, ho] at hx
  obtain rfl := Option.some.inj hx
  exact hlock

/-- Inside the section, the lock of an item of one's own. -/
theorem Move.lockItem {mode : FlockMode} {nonblock : Bool} (h : u.Inv s)
    (hin : s.2.holder = some (i, f)) (hown : Own u i fd o s) (hinfo : ¬ u.IsInfo s.1 o.ino)
    (hlock : o.lock = none) (hgrants : s.1.grants fd o.ino mode = true) :
    u.Move i (.flock fd mode nonblock) true s
      (s.1.setOpen fd (some { o with lock := some mode }), s.2) := by
  have hd : Differs s.1 (s.1.setOpen fd (some { o with lock := some mode })) fd
      (some { o with lock := some mode }) := ⟨rfl, rfl, rfl, rfl⟩
  have hwf : (s.1.setOpen fd (some { o with lock := some mode })).Wf :=
    h.wf.setLock hown.opened fun fd' y hy hne hino =>
      Kernel.compatible_of_granted ((Kernel.grants_iff h.wf).mp hgrants fd' y hy hne hino)
  refine ⟨h.of_differs hwf hd ?_ ?_, .inl ⟨rfl, ?_⟩, ?_⟩
  · rintro x ⟨⟩ hinfo' -
    exact absurd hinfo' hinfo
  · rintro (⟨j, hj⟩ | ⟨hacc, c, hc, hfd⟩)
    · obtain ⟨x, hx, hinfo', -⟩ := h.holds j fd hj
      rw [hown.opened] at hx
      obtain rfl := Option.some.inj hx
      exact absurd hinfo' hinfo
    · rw [h.claim_locked hacc hown.opened hc hfd] at hlock
      cases hlock
  · rintro ⟨⟨x, hx, hinfo'⟩, -⟩
    rw [hown.opened] at hx
    obtain rfl := Option.some.inj hx
    exact hinfo hinfo'
  · intro j hj
    refine (Spares.of_differs hd ?_ ?_).rely_of_section hin (.inl hin) hj
    · intro y hy
      rw [hown.opened] at hy
      obtain rfl := Option.some.inj hy
      exact .inl hown.opener
    · exact fun hsh => absurd hsh hown.unshared

/-- Closing a descriptor of one's own that is neither that of a pending file nor that of the lock. -/
theorem Move.close (h : u.Inv s) (hown : Own u i fd o s) (hout : s.2.holder ≠ some (i, fd))
    (hclaim : u.accounts = true → ∀ c ∈ s.2.pending, c.fd ≠ fd) (r : Bool) :
    u.Move i (.close fd) r s (s.1.setOpen fd none, s.2) := by
  have hd : Differs s.1 (s.1.setOpen fd none) fd none := ⟨rfl, rfl, rfl, rfl⟩
  refine ⟨h.of_differs (h.wf.setOpen nofun nofun) hd nofun ?_, rfl, ?_⟩
  · rintro (⟨j, hj⟩ | ⟨hacc, c, hc, hfd⟩)
    · obtain ⟨x, hx, -, -, hwho⟩ := h.holds j fd hj
      rw [hown.opened] at hx
      obtain rfl := Option.some.inj hx
      rcases hwho with hsh | ⟨-, hopener⟩
      · exact absurd hsh hown.unshared
      · have hji : j = i := hopener.symm.trans hown.opener
        exact absurd (hji ▸ hj) hout
    · exact absurd hfd (hclaim hacc c hc)
  · intro j hj
    refine (Spares.of_differs hd ?_ ?_).rely_of_calm hj rfl (Calm.of_differs hd nofun) ?_
    · intro y hy
      rw [hown.opened] at hy
      obtain rfl := Option.some.inj hy
      exact .inl hown.opener
    · exact fun hsh => absurd hsh hown.unshared
    · exact fun g hg => h.opened_eq hg hj hd hown

/-- Nothing is open under the next number. -/
theorem Inv.opened_next (h : u.Inv s) : s.1.opened s.1.nextFd = none := by
  rw [Option.eq_none_iff_forall_ne_some]
  exact fun x hx => Nat.lt_irrefl _ (h.wf.fd_lt _ x hx)

/-- Opening a file: any inside the section, `cache_info` outside. -/
theorem Move.addOpen {c : SysCall} {r : c.Reply} (h : u.Inv s) {ino : Nat} (hino : ino < s.1.nextIno)
    (hside : (∃ f, s.2.holder = some (i, f)) ∨ u.IsInfo s.1 ino)
    (hmark : u.Mark i c r s (s.1.addOpen i ino, s.2)) :
    u.Move i c r s (s.1.addOpen i ino, s.2) := by
  have hnext := h.opened_next
  have hd : Differs s.1 (s.1.addOpen i ino) s.1.nextFd (some ⟨ino, 0, none, i⟩) :=
    ⟨rfl, rfl, rfl, rfl⟩
  have hspares : u.Spares i s (s.1.addOpen i ino, s.2) := by
    refine Spares.of_differs hd ?_ ?_
    · intro y hy
      rw [hnext] at hy
      cases hy
    · intro _ y hy
      rw [hnext] at hy
      cases hy
  refine ⟨h.of_differs (h.wf.addOpen i hino) hd ?_ ?_, hmark, ?_⟩
  · rintro x ⟨⟩ - hlock
    exact absurd rfl hlock
  · intro _ y hy
    rw [hnext] at hy
    cases hy
  · intro j hj
    rcases hside with ⟨f, hin⟩ | hinfo
    · exact hspares.rely_of_section hin (.inl hin) hj
    · refine hspares.rely_of_calm hj rfl (Calm.of_differs hd ?_) ?_
      · rintro x ⟨⟩ hx
        exact absurd hinfo hx
      · intro g hg
        apply hd.opened_ne
        rintro rfl
        obtain ⟨x, hx, -⟩ := h.holds j _ hg
        rw [hnext] at hx
        cases hx

/-- Creating a file: any inside the section, `cache_info` outside. -/
theorem Move.addFile {c : SysCall} {r : c.Reply} (h : u.Inv s) {loc : List Text}
    (hnew : s.1.entries.lookup loc = none) (hnames : ∀ n ∈ loc, IsFileName n)
    (hside : (∃ f, s.2.holder = some (i, f)) ∨ loc = u.infoLoc)
    (hmark : u.Mark i c r s (s.1.addFile i loc, s.2)) :
    u.Move i c r s (s.1.addFile i loc, s.2) := by
  have hnext := h.opened_next
  have hopened : ∀ g x, s.1.opened g = some x → (s.1.addFile i loc).opened g = some x := by
    intro g x hx
    have hg : g ≠ s.1.nextFd := by
      rintro rfl
      rw [hnext] at hx
      cases hx
    rw [Kernel.addFile_opened_of_ne hg]
    exact hx
  have hfiles : ∀ e ∈ s.1.files, e ∈ (s.1.addFile i loc).files := fun e he => List.mem_cons_of_mem _ he
  have hdata : ∀ ino, ino < s.1.nextIno → (s.1.addFile i loc).data ino = s.1.data ino :=
    fun ino hino => Kernel.addFile_data_of_ne (Nat.ne_of_lt hino)
  have hwf : (s.1.addFile i loc).Wf := h.wf.addFile i hnew hnames
  -- without a holder the file is cache_info, and there was none
  have hnone : s.2.holder = none → u.recorded s = 0 ∧ u.recorded (s.1.addFile i loc, s.2) = 0 := by
    intro hholder
    have hloc : loc = u.infoLoc := by
      rcases hside with ⟨f, hf⟩ | hloc
      · rw [hholder] at hf
        cases hf
      · exact hloc
    subst hloc
    refine ⟨recorded_eq_zero h.wf fun ino hino => ?_, ?_⟩
    · cases hnew.symm.trans (h.wf.lookup_entries.mpr (Kernel.mem_entries_of_file hino))
    · have hinfo : u.IsInfo (s.1.addFile i u.infoLoc) s.1.nextIno := List.mem_cons_self
      rw [recorded_eq (s := (s.1.addFile i u.infoLoc, s.2)) hwf hinfo]
      rw [Kernel.addFile_data_self]
      rfl
  have hinv : u.Inv (s.1.addFile i loc, s.2) := by
    refine ⟨hwf, ?_, ?_, ?_, h.unused⟩
    · intro g x hx hinfo hlock
      by_cases hg : g = s.1.nextFd
      · subst hg
        rw [Kernel.addFile_opened_self] at hx
        obtain rfl := Option.some.inj hx
        exact absurd rfl hlock
      · rw [Kernel.addFile_opened_of_ne hg] at hx
        rcases List.mem_cons.mp hinfo with heq | hinfo
        · have hlt := h.wf.ino_lt g x hx
          rw [(Prod.mk.inj heq).2] at hlt
          exact absurd hlt (Nat.lt_irrefl _)
        · exact h.locked g x hx hinfo hlock
    · intro j f hf
      obtain ⟨x, hx, hinfo, hrest⟩ := h.holds j f hf
      exact ⟨x, hopened f x hx, hfiles _ hinfo, hrest⟩
    · intro hacc
      have hb := h.books hacc
      refine ⟨hb.noFolder, ?_, hb.distinct, ?_, ?_⟩
      · intro c hc
        obtain ⟨x, n, hx, hopener, hsh, hino, hlock, hfile, hn⟩ := hb.claim c hc
        exact ⟨x, n, hopened c.fd x hx, hopener, hsh, hino, hlock, hfiles _ hfile, hn⟩
      · rw [itemBytes_addFile h.wf]
        exact hb.small
      · intro hholder
        rw [(hnone hholder).2, counted_addFile h.wf, ← hb.balance hholder, (hnone hholder).1]
  have hspares : u.Spares i s (s.1.addFile i loc, s.2) := by
    refine ⟨fun g x hx _ _ => hopened g x hx, fun g x _ hx => ⟨x, hopened g x hx, rfl⟩,
      fun ino hino => hfiles _ hino, fun _ _ => Iff.rfl, ?_⟩
    intro hacc c hc _
    obtain ⟨x, n, -, -, -, -, -, hfile, -⟩ := (h.books hacc).claim c hc
    exact hdata c.ino (h.wf.entry_lt _ (Kernel.mem_entries_of_file hfile))
  refine ⟨hinv, hmark, fun j hj => ?_⟩
  rcases hside with ⟨f, hin⟩ | rfl
  · exact hspares.rely_of_section hin (.inl hin) hj
  · have hout : ∀ f, s.2.holder ≠ some (j, f) := by
      intro f hf
      obtain ⟨x, -, hinfo, -⟩ := h.holds j f hf
      cases hnew.symm.trans (h.wf.lookup_entries.mpr (Kernel.mem_entries_of_file hinfo))
    exact hspares.rely hj hout hout

/-- Removing a file that is not `cache_info` and not pending. -/
theorem Move.dropFile {path : Text} {r : Bool} (h : u.Inv s) (hin : s.2.holder = some (i, f))
    {loc : List Text} (hloc : u.infoLoc ≠ loc)
    (hclaim : u.accounts = true → ∀ c ∈ s.2.pending, (loc, c.ino) ∉ s.1.files) :
    u.Move i (.remove path) r s (s.1.dropFile loc, s.2) := by
  have hfiles : ∀ e ∈ s.1.files, e.1 ≠ loc → e ∈ (s.1.dropFile loc).files := by
    intro e he hne
    exact List.mem_filter.mpr ⟨he, by simpa using hne⟩
  have hinfo : ∀ ino, u.IsInfo s.1 ino → u.IsInfo (s.1.dropFile loc) ino :=
    fun ino hino => hfiles _ hino hloc
  refine ⟨⟨h.wf.dropFile loc, ?_, ?_, ?_, h.unused⟩, rfl, fun j hj => ?_⟩
  · intro g x hx hi hlock
    exact h.locked g x hx (List.mem_of_mem_filter hi) hlock
  · intro j g hg
    obtain ⟨x, hx, hi, hrest⟩ := h.holds j g hg
    exact ⟨x, hx, hinfo _ hi, hrest⟩
  · intro hacc
    have hb := h.books hacc
    refine ⟨hb.noFolder, ?_, hb.distinct, ?_, ?_⟩
    · intro c hc
      obtain ⟨x, n, hx, hopener, hsh, hino, hlock, hfile, hn⟩ := hb.claim c hc
      refine ⟨x, n, hx, hopener, hsh, hino, hlock, hfiles _ hfile ?_, hn⟩
      intro hne
      exact hclaim hacc c hc (by rw [← hne]; exact hfile)
    · exact Nat.lt_of_le_of_lt (itemBytes_dropFile_le u.home) hb.small
    · intro hnone
      rw [hin] at hnone
      cases hnone
  · have hspares : u.Spares i s (s.1.dropFile loc, s.2) :=
      ⟨fun _ _ hx _ _ => hx, fun _ x _ hx => ⟨x, hx, rfl⟩, hinfo, fun _ _ => Iff.rfl,
        fun _ _ _ _ => rfl⟩
    exact hspares.rely_of_section hin (.inl hin) hj

section Contents

variable {ino : Nat} {bytes : List UInt8}

/-- Writing keeps the invariant where the recorded size and the sizes still agree. -/
theorem Inv.setData (h : u.Inv s) (p : List Pending) (hsub : p.Sublist s.2.pending)
    (hsmall : u.accounts = true → itemBytes u.home (s.1.setData ino bytes) < 2 ^ 64)
    (hbalance : u.accounts = true → s.2.holder = none →
      u.recorded (s.1.setData ino bytes, { s.2 with pending := p }) =
        u.counted (s.1.setData ino bytes, { s.2 with pending := p })) :
    u.Inv (s.1.setData ino bytes, { s.2 with pending := p }) where
  wf := h.wf.setData ino bytes
  locked := h.locked
  holds := h.holds
  books := by
    intro hacc
    have hb := h.books hacc
    exact ⟨hb.noFolder, fun c hc => hb.claim c (hsub.subset hc),
      (hsub.map Pending.ino).nodup hb.distinct, hsmall hacc, hbalance hacc⟩
  unused := by
    intro hacc
    rw [h.unused hacc] at hsub
    exact List.sublist_nil.mp hsub

/-- Inside the section, writing to `cache_info`; a claim may be settled with it. -/
theorem Move.record (bytes : List UInt8) (h : u.Inv s) (hin : s.2.holder = some (i, f))
    (hinfo : u.IsInfo s.1 ino) (p : List Pending) (hsub : p.Sublist s.2.pending)
    (hclaims : ∀ c ∈ s.2.pending, c.client ≠ i → c ∈ p) :
    u.Inv (s.1.setData ino bytes, { s.2 with pending := p }) ∧
      ∀ j, j ≠ i → u.Rely j s (s.1.setData ino bytes, { s.2 with pending := p }) := by
  constructor
  · refine h.setData p hsub ?_ ?_
    · intro hacc
      rw [itemBytes_setData_of_not]
      · exact (h.books hacc).small
      · intro e he hino hitem
        exact h.ne_info he hitem (by rwa [hino])
    · intro _ hnone
      rw [hin] at hnone
      cases hnone
  · intro j hj
    have hspares : u.Spares i s (s.1.setData ino bytes, { s.2 with pending := p }) := by
      refine ⟨fun _ _ hx _ _ => hx, fun _ x _ hx => ⟨x, hx, rfl⟩, fun _ hx => hx, ?_, ?_⟩
      · exact fun c hc => ⟨fun hmem => hsub.subset hmem, fun hmem => hclaims c hmem hc⟩
      · intro hacc c hc _
        obtain ⟨x, n, -, -, -, -, -, hfile, hn⟩ := (h.books hacc).claim c hc
        apply Kernel.setData_data_of_ne
        intro hino
        exact h.ne_info hfile (isItem_name hn) (by rwa [hino])
    exact hspares.rely_of_section hin (.inl hin) hj

/-- Outside the section, writing to `cache_info` what is there already. -/
theorem Move.rewrite (bytes : List UInt8) (h : u.Inv s) (hinfo : u.IsInfo s.1 ino)
    (hsame : u.accounts = true → sizeIn bytes = u.recorded s) :
    u.Inv (s.1.setData ino bytes, s.2) ∧
      ∀ j, j ≠ i → u.Rely j s (s.1.setData ino bytes, s.2) := by
  have hitems : ∀ e ∈ s.1.files, e.2 = ino → ¬ IsItem u.home e.1 := by
    intro e he hino hitem
    exact h.ne_info he hitem (by rwa [hino])
  have hrecorded : u.accounts = true → u.recorded (s.1.setData ino bytes, s.2) = u.recorded s := by
    intro hacc
    rw [recorded_eq (s := (s.1.setData ino bytes, s.2)) (h.wf.setData ino bytes) hinfo,
      Kernel.setData_data_self, hsame hacc]
  constructor
  · refine h.setData s.2.pending (List.Sublist.refl _) ?_ ?_
    · intro hacc
      rw [itemBytes_setData_of_not u.home hitems]
      exact (h.books hacc).small
    · intro hacc hnone
      have hcounted : u.counted (s.1.setData ino bytes, s.2) = u.counted s :=
        counted_setData_of_not fun e he hino hx => hitems e he hino hx.1
      show u.recorded (s.1.setData ino bytes, s.2) = u.counted (s.1.setData ino bytes, s.2)
      rw [hrecorded hacc, hcounted]
      exact (h.books hacc).balance hnone
  · intro j hj
    have hdata : ∀ e ∈ s.1.files, IsItem u.home e.1 →
        (s.1.setData ino bytes).data e.2 = s.1.data e.2 :=
      fun e he hitem => Kernel.setData_data_of_ne fun hino => hitems e he hino hitem
    have hspares : u.Spares i s (s.1.setData ino bytes, s.2) := by
      refine ⟨fun _ _ hx _ _ => hx, fun _ x _ hx => ⟨x, hx, rfl⟩, fun _ hx => hx,
        fun _ _ => Iff.rfl, ?_⟩
      intro hacc c hc _
      obtain ⟨x, n, -, -, -, -, -, hfile, hn⟩ := (h.books hacc).claim c hc
      exact hdata _ hfile (isItem_name hn)
    refine hspares.rely_of_calm hj rfl ?_ fun _ _ => rfl
    exact ⟨⟨List.Perm.refl _, fun _ hx => hx, rfl, hrecorded, fun _ e he hitem _ => hdata e he hitem⟩,
      fun _ x hx _ => ⟨x, hx, rfl⟩⟩

/-- Writing to a file of one's own: a pending one, or inside the section one that no one has a claim
to. -/
theorem Move.fill (bytes : List UInt8) (h : u.Inv s) (hinfo : ¬ u.IsInfo s.1 ino)
    (hsmall : u.accounts = true → itemBytes u.home (s.1.setData ino bytes) < 2 ^ 64)
    (hside : (∃ f, s.2.holder = some (i, f)) ∧
        (u.accounts = true → ∀ c ∈ s.2.pending, c.ino ≠ ino) ∨
      (u.accounts = true → ∃ c ∈ s.2.pending, c.client = i ∧ c.ino = ino)) :
    u.Inv (s.1.setData ino bytes, s.2) ∧
      ∀ j, j ≠ i → u.Rely j s (s.1.setData ino bytes, s.2) := by
  have hrecorded : u.recorded (s.1.setData ino bytes, s.2) = u.recorded s :=
    recorded_setData_of_ne hinfo h.wf s.2
  constructor
  · refine h.setData s.2.pending (List.Sublist.refl _) hsmall ?_
    intro hacc hnone
    rcases hside with ⟨⟨f, hin⟩, -⟩ | hclaim
    · rw [hin] at hnone
      cases hnone
    · obtain ⟨c, hc, -, hino⟩ := hclaim hacc
      have hcounted : u.counted (s.1.setData ino bytes, s.2) = u.counted s :=
        counted_setData_of_not fun e _ he hx => hx.2 c hc (hino.trans he.symm)
      show u.recorded (s.1.setData ino bytes, s.2) = u.counted (s.1.setData ino bytes, s.2)
      rw [hrecorded, hcounted]
      exact (h.books hacc).balance hnone
  · intro j hj
    have hspares : u.Spares i s (s.1.setData ino bytes, s.2) := by
      refine ⟨fun _ _ hx _ _ => hx, fun _ x _ hx => ⟨x, hx, rfl⟩, fun _ hx => hx,
        fun _ _ => Iff.rfl, ?_⟩
      intro hacc c hc hci
      apply Kernel.setData_data_of_ne
      rcases hside with ⟨-, hfree⟩ | hclaim
      · exact hfree hacc c hc
      · obtain ⟨c', hc', hci', hino⟩ := hclaim hacc
        intro heq
        -- only one client has a claim to a file
        have hcc := List.inj_on_of_nodup_map (h.books hacc).distinct hc hc' (heq.trans hino.symm)
        rw [hcc] at hci
        exact hci hci'
    rcases hside with ⟨⟨f, hin⟩, -⟩ | hclaim
    · exact hspares.rely_of_section hin (.inl hin) hj
    · refine hspares.rely_of_calm hj rfl ?_ fun _ _ => rfl
      refine ⟨⟨List.Perm.refl _, fun _ hx => hx, rfl, fun _ => hrecorded, ?_⟩,
        fun _ x hx _ => ⟨x, hx, rfl⟩⟩
      intro hacc e _ _ hfree
      obtain ⟨c, hc, -, hino⟩ := hclaim hacc
      exact Kernel.setData_data_of_ne fun he => hfree c hc (hino.trans he.symm)

/-- Two changes by one client, one after the other. -/
theorem Move.after {c : SysCall} {r : c.Reply} {s' s'' : View} (hothers : ∀ j, j ≠ i → u.Rely j s s')
    (hmove : u.Move i c r s' s'') (hmark : u.Mark i c r s s'') : u.Move i c r s s'' :=
  ⟨hmove.inv, hmark, fun j hj => (hothers j hj).trans (hmove.others j hj)⟩

end Contents

/-! ### The lock of the cache -/

/-- The files that claims are about are not `cache_info`, so they stay when its lock changes. -/
theorem Inv.claims_setLock (h : u.Inv s) (hacc : u.accounts = true) (ho : s.1.opened fd = some o)
    (hinfo : u.IsInfo s.1 o.ino) (o' : Option OpenFile) : ∀ c ∈ s.2.pending, ∃ x n,
      (s.1.setOpen fd o').opened c.fd = some x ∧ x.opener = c.client ∧ u.shared ≠ some c.fd ∧
      x.ino = c.ino ∧ x.lock = some .exclusive ∧ (u.home ++ [n], c.ino) ∈ s.1.files ∧ n ≠ cacheInfoName := by
  intro c hc
  obtain ⟨x, n, hx, hopener, hsh, hino, hlock, hfile, hn⟩ := (h.books hacc).claim c hc
  have hne : c.fd ≠ fd := by
    intro hfd
    rw [hfd, ho] at hx
    obtain rfl := Option.some.inj hx
    exact h.ne_info hfile (isItem_name hn) (by rwa [← hino])
  exact ⟨x, n, by rwa [Kernel.setOpen_opened_of_ne hne], hopener, hsh, hino, hlock, hfile, hn⟩

/-- A lock may be taken and given back through a descriptor that is shared or one's own. -/
theorem spares_setLock (ho : s.1.opened fd = some o)
    (hwho : u.shared = some fd ∨ u.shared = none ∧ o.opener = i) (lock : Option FlockMode)
    (holder : Option (Nat × Nat)) :
    u.Spares i s (s.1.setOpen fd (some { o with lock := lock }), { s.2 with holder := holder }) := by
  refine ⟨?_, ?_, fun _ hx => hx, fun _ _ => Iff.rfl, fun _ _ _ _ => rfl⟩
  · intro g x hx hopener hsh
    have hg : g ≠ fd := by
      rintro rfl
      rw [ho] at hx
      obtain rfl := Option.some.inj hx
      rcases hwho with hsh' | ⟨-, hi⟩
      · exact hsh hsh'
      · exact hopener hi
    rwa [Kernel.setOpen_opened_of_ne hg]
  · intro g x _ hx
    by_cases hg : g = fd
    · subst hg
      rw [ho] at hx
      obtain rfl := Option.some.inj hx
      exact ⟨_, Kernel.setOpen_opened_self, rfl⟩
    · exact ⟨x, by rwa [Kernel.setOpen_opened_of_ne hg], rfl⟩

/-- Who gets the lock of the cache enters the section. -/
theorem Move.lockCache (h : u.Inv s) (hnone : s.2.holder = none) (ho : s.1.opened fd = some o)
    (hinfo : u.IsInfo s.1 o.ino) (hwho : u.shared = some fd ∨ u.shared = none ∧ o.opener = i)
    (hgrants : s.1.grants fd o.ino .exclusive = true) :
    u.Move i (.flock fd .exclusive false) true s
      (s.1.setOpen fd (some { o with lock := some .exclusive }),
        { s.2 with holder := some (i, fd) }) := by
  have hwf : (s.1.setOpen fd (some { o with lock := some .exclusive })).Wf :=
    h.wf.setLock ho fun fd' y hy hne hino =>
      Kernel.compatible_of_granted ((Kernel.grants_iff h.wf).mp hgrants fd' y hy hne hino)
  refine ⟨⟨hwf, ?_, ?_, ?_, h.unused⟩, .inr ⟨⟨o, ho, hinfo⟩, rfl, rfl, rfl, hnone, rfl⟩, fun j hj => ?_⟩
  · intro g x hx hi hlock
    by_cases hg : g = fd
    · exact ⟨i, by rw [hg]⟩
    · obtain ⟨j, hj⟩ := h.locked g x (by rwa [Kernel.setOpen_opened_of_ne hg] at hx) hi hlock
      rw [hnone] at hj
      cases hj
  · rintro j g ⟨⟩
    refine ⟨_, Kernel.setOpen_opened_self, hinfo, rfl, ?_⟩
    exact hwho
  · intro hacc
    have hb := h.books hacc
    exact ⟨hb.noFolder, h.claims_setLock hacc ho hinfo _, hb.distinct, hb.small, nofun⟩
  · refine Spares.rely (spares_setLock ho hwho _ _) hj ?_ ?_
    · rw [hnone]
      exact nofun
    · rintro g ⟨⟩
      exact hj rfl

/-- The section is left with the recorded size right. -/
theorem Move.unlockCache {r : Bool} (h : u.Inv s) (hin : s.2.holder = some (i, fd))
    (ho : s.1.opened fd = some o) (hbalance : u.accounts = true → u.recorded s = u.counted s) :
    u.Move i (.unlock fd) r s
      (s.1.setOpen fd (some { o with lock := none }), { s.2 with holder := none }) := by
  obtain ⟨y, hy, hinfo, hex, hwho⟩ := h.holds i fd hin
  rw [ho] at hy
  obtain rfl := Option.some.inj hy
  have hwf : (s.1.setOpen fd (some { o with lock := none })).Wf :=
    h.wf.setLock ho fun _ _ _ _ _ => Kernel.compatible_none _
  refine ⟨⟨hwf, ?_, nofun, ?_, h.unused⟩, ⟨hin, rfl⟩, fun j hj => ?_⟩
  · intro g x hx hi hlock
    by_cases hg : g = fd
    · subst hg
      rw [Kernel.setOpen_opened_self] at hx
      obtain rfl := Option.some.inj hx
      exact absurd rfl hlock
    · rw [Kernel.setOpen_opened_of_ne hg] at hx
      obtain ⟨j, hj⟩ := h.locked g x hx hi hlock
      rw [hin] at hj
      exact absurd (congrArg Prod.snd (Option.some.inj hj)).symm hg
  · intro hacc
    have hb := h.books hacc
    exact ⟨hb.noFolder, h.claims_setLock hacc ho hinfo _, hb.distinct, hb.small, fun _ => hbalance hacc⟩
  · exact Spares.rely_of_section (spares_setLock ho hwho _ _) hin (.inr rfl) hj

/-! ### Pending files, folders, drift -/

/-- Inside the section, a file of one's own becomes pending. -/
theorem Move.claim (h : u.Inv s) (hacc : u.accounts = true) (hlends : u.lends = true)
    (hin : s.2.holder = some (i, f)) (hown : Own u i fd o s) (hex : o.lock = some .exclusive) {n : Text}
    (hfile : (u.home ++ [n], o.ino) ∈ s.1.files)
    (hn : n ≠ cacheInfoName) (hfree : ∀ c ∈ s.2.pending, c.ino ≠ o.ino) :
    u.Inv (s.1, { s.2 with pending := ⟨i, fd, o.ino⟩ :: s.2.pending }) ∧
      ∀ j, j ≠ i → u.Rely j s (s.1, { s.2 with pending := ⟨i, fd, o.ino⟩ :: s.2.pending }) := by
  constructor
  · have hused : u.accounts = false ∨ u.lends = false → ⟨i, fd, o.ino⟩ :: s.2.pending = [] := by
      rw [hacc, hlends]
      rintro (h | h) <;> cases h
    refine ⟨h.wf, h.locked, h.holds, fun _ => ?_, hused⟩
    have hb := h.books hacc
    refine ⟨hb.noFolder, ?_, ?_, hb.small, ?_⟩
    · intro c hc
      rcases List.mem_cons.mp hc with rfl | hc
      · exact ⟨o, n, hown.opened, hown.opener, hown.unshared, rfl, hex, hfile, hn⟩
      · exact hb.claim c hc
    · show (o.ino :: s.2.pending.map Pending.ino).Nodup
      rw [List.nodup_cons]
      refine ⟨?_, hb.distinct⟩
      rw [List.mem_map]
      rintro ⟨c, hc, hino⟩
      exact hfree c hc hino
    · -- one is in the section, so nothing is said about the balance
      intro hnone
      have hnone' : s.2.holder = none := hnone
      rw [hin] at hnone'
      cases hnone'
  · intro j hj
    refine Spares.rely_of_section (i := i)
      ⟨fun _ _ hx _ _ => hx, fun _ x _ hx => ⟨x, hx, rfl⟩, fun _ hx => hx, ?_, fun _ _ _ _ => rfl⟩
      hin (.inl hin) hj
    intro c hc
    constructor
    · intro hmem
      rcases List.mem_cons.mp hmem with rfl | hmem
      · exact absurd rfl hc
      · exact hmem
    · exact fun hmem => List.mem_cons_of_mem _ hmem

/-- Folders are added. -/
structure Grows (K K' : Kernel) : Prop where
  files : K'.files = K.files
  opened : K'.opened = K.opened
  nextIno : K.nextIno ≤ K'.nextIno
  data : ∀ ino, ino < K.nextIno → K'.data ino = K.data ino
  folders : ∀ e ∈ K.folders, e ∈ K'.folders

theorem Grows.refl (K : Kernel) : Grows K K :=
  ⟨rfl, rfl, Nat.le_refl _, fun _ _ => rfl, fun _ h => h⟩

theorem Grows.addFolder {loc : List Text} {K K' : Kernel} (h : Grows (K.addFolder loc) K') :
    Grows K K' where
  files := h.files
  opened := h.opened
  nextIno := Nat.le_of_succ_le h.nextIno
  data := by
    intro ino hino
    rw [h.data ino (Nat.lt_succ_of_lt hino)]
    exact Function.update_of_ne (Nat.ne_of_lt hino) _ _
  folders := fun e he => h.folders e (List.mem_cons_of_mem _ he)

theorem grows_makeFolders (K : Kernel) (cur ps : List Text) : Grows K (K.makeFolders cur ps) := by
  induction ps generalizing K cur with
  | nil => exact Grows.refl K
  | cons p ps ih =>
      rw [Kernel.makeFolders]
      split
      · split
        · exact ih K _
        · exact Grows.addFolder (ih _ _)
      · exact Grows.refl K

/-- The kernels differ in nothing that matters to the cache. -/
structure Quiet (u : Usage) (K K' : Kernel) : Prop where
  wf : K'.Wf
  files : K'.files.Perm K.files
  opened : K'.opened = K.opened
  data : ∀ e ∈ K.files, K'.data e.2 = K.data e.2
  folders : ∀ e ∈ K.folders, e ∈ K'.folders
  outside : u.accounts = true → u.prepared = true →
    ∀ n ino, (u.home ++ [n], ino) ∈ K'.folders → (u.home ++ [n], ino) ∈ K.folders

section Quiet

variable (hq : Quiet u s.1 K')
include hq

theorem Quiet.isInfo (ino : Nat) : u.IsInfo K' ino ↔ u.IsInfo s.1 ino := hq.files.mem_iff

theorem Quiet.counted : u.counted (K', s.2) = u.counted s := by
  rw [Usage.counted, Usage.counted, ← (hq.files.map _).sum_eq]
  congr 1
  apply List.map_congr_left
  intro e he
  rw [weight, weight, hq.data e (hq.files.mem_iff.mp he)]

theorem Quiet.itemBytes (home : List Text) : itemBytes home K' = itemBytes home s.1 := by
  rw [Skunk.BesUtils.itemBytes, Skunk.BesUtils.itemBytes, ← (hq.files.map _).sum_eq]
  congr 1
  apply List.map_congr_left
  intro e he
  rw [hq.data e (hq.files.mem_iff.mp he)]

variable (h : u.Inv s)
include h

theorem Quiet.recorded : u.recorded (K', s.2) = u.recorded s := by
  by_cases hany : ∃ ino, u.IsInfo s.1 ino
  · obtain ⟨ino, hino⟩ := hany
    rw [recorded_eq h.wf hino, recorded_eq (s := (K', s.2)) hq.wf ((hq.isInfo ino).mpr hino)]
    exact congrArg sizeIn (hq.data _ hino)
  · have hnone : ∀ ino, ¬ u.IsInfo s.1 ino := fun ino hino => hany ⟨ino, hino⟩
    rw [recorded_eq_zero h.wf hnone,
      recorded_eq_zero (s := (K', s.2)) hq.wf fun ino hino => hnone ino ((hq.isInfo ino).mp hino)]

theorem Quiet.calm : u.Calm s (K', s.2) where
  files := hq.files
  folders := hq.folders
  pending := rfl
  recorded := fun _ => hq.recorded h
  data := fun _ e he _ _ => hq.data e he
  others := by
    intro g x hx _
    rw [hq.opened] at hx
    exact ⟨x, hx, rfl⟩

theorem Quiet.inv : u.Inv (K', s.2) where
  wf := hq.wf
  locked := by
    intro g x hx hi hlock
    rw [hq.opened] at hx
    exact h.locked g x hx ((hq.isInfo _).mp hi) hlock
  holds := by
    intro j g hg
    obtain ⟨x, hx, hi, hrest⟩ := h.holds j g hg
    exact ⟨x, by rwa [hq.opened], (hq.isInfo _).mpr hi, hrest⟩
  books := by
    intro hacc
    have hb := h.books hacc
    refine ⟨fun hp n ino hmem => hb.noFolder hp n ino (hq.outside hacc hp n ino hmem), ?_, hb.distinct,
      ?_, ?_⟩
    · intro c hc
      obtain ⟨x, n, hx, hopener, hsh, hino, hlock, hfile, hn⟩ := hb.claim c hc
      exact ⟨x, n, by rwa [hq.opened], hopener, hsh, hino, hlock, hq.files.mem_iff.mpr hfile, hn⟩
    · rw [hq.itemBytes]
      exact hb.small
    · intro hnone
      rw [hq.recorded h, hq.counted]
      exact hb.balance hnone
  unused := h.unused

theorem Quiet.rely (j : Nat) : u.Rely j s (K', s.2) where
  own := fun g x hx _ _ => by rwa [hq.opened]
  shared := fun g x _ hx => ⟨x, by rwa [hq.opened], rfl⟩
  info := fun ino hino => (hq.isInfo ino).mpr hino
  inside := fun _ => Iff.rfl
  claims := fun _ _ => Iff.rfl
  claimed := by
    intro hacc c hc _
    obtain ⟨x, n, -, -, -, -, -, hfile, -⟩ := (h.books hacc).claim c hc
    exact hq.data _ hfile
  still := fun g _ => ⟨by rw [hq.opened], hq.calm h⟩

end Quiet

/-- Making the folders on the way to a directory. -/
theorem Move.mkdirP (dir : Text) (h : u.Inv s) (hside : u.accounts = true → u.prepared = false) :
    u.Move i (.mkdirP dir) () s (s.1.makeFolders [] (pieces (cStr dir)), s.2) := by
  have hgrows := grows_makeFolders s.1 [] (pieces (cStr dir))
  have hq : Quiet u s.1 (s.1.makeFolders [] (pieces (cStr dir))) := by
    refine ⟨?_, by rw [hgrows.files], hgrows.opened, ?_, hgrows.folders, ?_⟩
    · exact h.wf.makeFolders (by simp) fun p hp => Kernel.pieces_cStr hp
    · exact fun e he => hgrows.data e.2 (h.wf.entry_lt e (Kernel.mem_entries_of_file he))
    · intro hacc hprep
      rw [hside hacc] at hprep
      cases hprep
  exact ⟨hq.inv h, rfl, fun j _ => hq.rely h j⟩

/-- Drift changes nothing that anybody relies on. -/
theorem quiet_of_drift (h : u.Inv s) (hdrift : Kernel.Drift s.1 K') : Quiet u s.1 K' where
  wf := h.wf.drift hdrift
  files := hdrift.files
  opened := hdrift.opened
  data := fun e _ => by rw [hdrift.data]
  folders := fun e he => by rwa [hdrift.folders]
  outside := fun _ _ n ino hmem => by rwa [hdrift.folders] at hmem

end Moves

end Usage

end Skunk.BesUtils
