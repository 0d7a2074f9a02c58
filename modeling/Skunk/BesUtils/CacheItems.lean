import Skunk.BesUtils.CacheSection

/-!
# Items inside the locked section

A client that holds the lock of the cache creates an item and fills it (`Filling`), or opens one that is
there. A new item is known to nobody else, so its lock is granted at once; a lock on an item that was
there is asked for without waiting.
-/

namespace Skunk.BesUtils

open Effect Posix

namespace Usage

variable {u : Usage} {i f fd : Nat} {o : OpenFile} {s s' : View}

/-- In the section there is a `cache_info`. -/
theorem Inv.exists_info (h : u.Inv s) (hin : s.2.holder = some (i, f)) :
    ∃ o, s.1.opened f = some o ∧ u.IsInfo s.1 o.ino := by
  obtain ⟨o, ho, hinfo, -⟩ := h.holds i f hin
  exact ⟨o, ho, hinfo⟩

/-- A shared descriptor is the one that the lock is held through. -/
theorem Inv.shared_eq (h : u.Inv s) (hin : s.2.holder = some (i, f)) {g : Nat}
    (hg : u.shared = some g) : g = f := by
  obtain ⟨o, -, -, -, hsh | ⟨hsh, -⟩⟩ := h.holds i f hin
  · rw [hg] at hsh
    exact Option.some.inj hsh
  · rw [hg] at hsh
    cases hsh

theorem Inv.next_ne (h : u.Inv s) {g : Nat} {x : OpenFile} (hx : s.1.opened g = some x) :
    g ≠ s.1.nextFd := by
  rintro rfl
  rw [h.opened_next] at hx
  cases hx

theorem Inv.next_unshared (h : u.Inv s) (hin : s.2.holder = some (i, f)) :
    u.shared ≠ some s.1.nextFd := by
  intro hsh
  obtain ⟨o, ho, -⟩ := h.exists_info hin
  exact h.next_ne ho (h.shared_eq hin hsh).symm

/-! ## A new item -/

/-- The client in the section has a new file, which holds `bytes` and is not recorded yet. -/
structure Filling (u : Usage) (i f fd : Nat) (o : OpenFile) (bytes : List UInt8) (s : View) : Prop where
  section_ : InSection u i f bytes.length 0 s
  own : Own u i fd o s
  ne : fd ≠ f
  notInfo : ¬ u.IsInfo s.1 o.ino
  alone : ∀ g x, s.1.opened g = some x → x.ino = o.ino → g = fd
  content : u.accounts = true → s.1.data o.ino = bytes ∧ o.offset = bytes.length
  item : u.accounts = true → ∃ n, (u.home ++ [n], o.ino) ∈ s.1.files ∧ n ≠ cacheInfoName
  free : u.accounts = true → ∀ c ∈ s.2.pending, c.ino ≠ o.ino

theorem Filling.kept {bytes : List UInt8} (h : Filling u i f fd o bytes s) (hk : Kept u i f s s') :
    Filling u i f fd o bytes s' where
  section_ := h.section_.kept hk
  own := hk.own fd o h.ne h.own
  ne := h.ne
  notInfo := by
    rw [hk.calm.isInfo]
    exact h.notInfo
  alone := by
    intro g x hx hino
    have hinfo : ¬ u.IsInfo s'.1 x.ino := by
      rw [hk.calm.isInfo, hino]
      exact h.notInfo
    obtain ⟨y, hy, hyx⟩ := hk.calm.others g x hx hinfo
    exact h.alone g y hy (hyx.trans hino)
  content := by
    intro hacc
    obtain ⟨n, hfile, hn⟩ := h.item hacc
    rw [hk.calm.data hacc _ hfile (isItem_name hn) (h.free hacc)]
    exact h.content hacc
  item := by
    intro hacc
    obtain ⟨n, hfile, hn⟩ := h.item hacc
    exact ⟨n, hk.calm.files.mem_iff.mpr hfile, hn⟩
  free := by
    intro hacc
    rw [hk.calm.pending]
    exact h.free hacc

/-- The recorded size does not change with a new file. -/
theorem recorded_addFile (h : u.Inv s) (hin : s.2.holder = some (i, f)) {loc : List Text} {j : Nat}
    (hwf : (s.1.addFile j loc).Wf) : u.recorded (s.1.addFile j loc, s.2) = u.recorded s := by
  obtain ⟨o, -, hinfo⟩ := h.exists_info hin
  have hinfo' : u.IsInfo (s.1.addFile j loc) o.ino := List.mem_cons_of_mem _ hinfo
  have hne : o.ino ≠ s.1.nextIno :=
    Nat.ne_of_lt (h.wf.entry_lt _ (Kernel.mem_entries_of_file hinfo))
  rw [recorded_eq h.wf hinfo, recorded_eq (s := (s.1.addFile j loc, s.2)) hwf hinfo',
    Kernel.addFile_data_of_ne hne]

/-- A file that has just been created. -/
theorem filling_addFile (h : u.Inv s) (hsec : InSection u i f 0 0 s) {loc : List Text}
    (hnew : s.1.entries.lookup loc = none) (hnames : ∀ n ∈ loc, IsFileName n)
    (hloc : u.accounts = true → ∃ n, loc = u.home ++ [n] ∧ n ≠ cacheInfoName) :
    Filling u i f s.1.nextFd ⟨s.1.nextIno, 0, none, i⟩ [] (s.1.addFile i loc, s.2) := by
  have hwf := h.wf.addFile i hnew hnames
  obtain ⟨x, hx, hinfo⟩ := h.exists_info hsec.holder
  refine ⟨⟨hsec.holder, fun hacc => ?_⟩, ⟨Kernel.addFile_opened_self, rfl, h.next_unshared hsec.holder⟩,
    (h.next_ne hx).symm, ?_, ?_, fun _ => ⟨Kernel.addFile_data_self, rfl⟩, ?_, ?_⟩
  · rw [recorded_addFile h hsec.holder hwf, counted_addFile h.wf]
    exact hsec.balance hacc
  · intro hmem
    rcases List.mem_cons.mp hmem with heq | hmem
    · have hlook := h.wf.lookup_entries.mpr (Kernel.mem_entries_of_file hinfo)
      rw [(Prod.mk.inj heq).1, hnew] at hlook
      cases hlook
    · exact absurd (h.wf.entry_lt _ (Kernel.mem_entries_of_file hmem)) (Nat.lt_irrefl _)
  · intro g y hy hino
    by_contra hg
    rw [Kernel.addFile_opened_of_ne hg] at hy
    have hlt := h.wf.ino_lt g y hy
    rw [hino] at hlt
    exact Nat.lt_irrefl _ hlt
  · intro hacc
    obtain ⟨n, rfl, hn⟩ := hloc hacc
    exact ⟨n, List.mem_cons_self, hn⟩
  · intro hacc c hc
    obtain ⟨y, n, -, -, -, -, -, hfile, -⟩ := (h.books hacc).claim c hc
    exact Nat.ne_of_lt (h.wf.entry_lt _ (Kernel.mem_entries_of_file hfile))


/-! ## What is left of the client's own -/

/-- The client has no descriptor of this number. -/
def Fresh (u : Usage) (i fd : Nat) (s : View) : Prop := ∀ o, ¬ Own u i fd o s

theorem Inv.fresh_next (h : u.Inv s) : Fresh u i s.1.nextFd s := by
  intro o ho
  have hopened := ho.opened
  rw [h.opened_next] at hopened
  cases hopened

/-- One more description, perhaps of a new file. -/
theorem frame_of_opened {K' : Kernel} (hopened : ∀ g x, s.1.opened g = some x → K'.opened g = some x)
    (hfiles : ∀ e ∈ s.1.files, e ∈ K'.files) (mod : Option Nat) : Frame u i f mod s (K', s.2) where
  own := fun g x _ _ hx => ⟨hopened g x hx.opened, hx.opener, hx.unshared⟩
  info := by
    rintro ⟨x, hx, hinfo, hwho⟩
    exact ⟨x, hopened f x hx, hfiles _ hinfo, hwho⟩
  file := fun ino hino => hfiles _ hino
  claims := fun _ _ _ => Iff.rfl

/-- A description of the client's own changes. -/
theorem frame_setOpen {x : Option OpenFile} (hne : fd ≠ f) :
    Frame u i f (some fd) s (s.1.setOpen fd x, s.2) where
  own := by
    intro g y hmod _ hy
    exact hy.setOpen_of_ne (fun hg => hmod (by rw [hg])) s.2
  info := by
    rintro ⟨y, hy, hinfo, hwho⟩
    exact ⟨y, by rwa [Kernel.setOpen_opened_of_ne (Ne.symm hne)], hinfo, hwho⟩
  file := fun _ hino => hino
  claims := fun _ _ _ => Iff.rfl

/-- What is written to a file leaves the descriptors alone. -/
theorem frame_setData {ino : Nat} {bytes : List UInt8} (mod : Option Nat) :
    Frame u i f mod s (s.1.setData ino bytes, s.2) :=
  ⟨fun _ _ _ _ h => ⟨h.opened, h.opener, h.unshared⟩, fun h => h, fun _ h => h, fun _ _ _ => Iff.rfl⟩

/-- There are claims only where the sizes are accounted for. -/
theorem Inv.accounts_of_claim (h : u.Inv s) {c : Pending} (hc : c ∈ s.2.pending) :
    u.accounts = true := by
  by_contra hacc
  rw [h.unused (.inl (by simpa using hacc))] at hc
  cases hc

/-- A claim of the client is a descriptor of its own. -/
theorem Inv.own_of_claim (h : u.Inv s) {c : Pending} (hc : c ∈ s.2.pending) (hi : c.client = i) :
    ∃ o, Own u i c.fd o s ∧ o.ino = c.ino ∧ o.lock = some .exclusive := by
  obtain ⟨o, n, ho, hopener, hsh, hino, hlock, -⟩ := (h.books (h.accounts_of_claim hc)).claim c hc
  exact ⟨o, ⟨ho, by rw [hopener, hi], hsh⟩, hino, hlock⟩

/-- Once a new descriptor is closed, nothing is left of it. -/
theorem Frame.close (h : Frame u i f (some fd) s s') (hinv : u.Inv s) (hfresh : Fresh u i fd s)
    (hinv' : u.Inv s') (hclosed : s'.1.opened fd = none) : Frame u i f none s s' where
  own := by
    intro g x _ hf hx
    refine h.own g x ?_ hf hx
    rintro ⟨⟩
    exact hfresh x hx
  info := h.info
  file := h.file
  claims := by
    intro c hc _
    by_cases hfd : c.fd = fd
    · constructor
      · intro hmem
        obtain ⟨o, ho, -⟩ := hinv'.own_of_claim hmem hc
        have hopened := ho.opened
        rw [hfd, hclosed] at hopened
        cases hopened
      · intro hmem
        obtain ⟨o, ho, -⟩ := hinv.own_of_claim hmem hc
        rw [hfd] at ho
        exact absurd ho (hfresh o)
    · refine h.claims c hc ?_
      rintro ⟨⟩
      exact hfd rfl

/-- The client may close the descriptor, which is new since `s`. -/
structure Closing (u : Usage) (i f fd : Nat) (s s' : View) : Prop where
  holder : s'.2.holder = some (i, f)
  own : ∃ o, Own u i fd o s'
  ne : fd ≠ f
  unclaimed : u.accounts = true → ∀ c ∈ s'.2.pending, c.fd ≠ fd
  frame : Frame u i f (some fd) s s'

theorem Closing.kept {s'' : View} (h : Closing u i f fd s s') (hk : Kept u i f s' s'')
    (hinv : u.Inv s'') : Closing u i f fd s s'' where
  holder := hk.holder
  own := by
    obtain ⟨o, ho⟩ := h.own
    exact ⟨o, hk.own fd o h.ne ho⟩
  ne := h.ne
  unclaimed := by
    rw [hk.calm.pending]
    exact h.unclaimed
  frame := h.frame.trans (hk.frame hinv).weaken

section Rules

variable {may : CacheOp → Prop} {α : Type}

/-- `~Item`. -/
theorem withItem_keeps {body : Sys α} {P : α → View → Prop} (hinv : u.Inv s) (hfresh : Fresh u i fd s)
    (hinv' : u.Inv s') (hstays : ∀ a s1 s2, s2.2.holder = some (i, f) → u.Steady s1 s2 → P a s1 → P a s2)
    (hbody : Keeps u may i body (fun a s1 => Closing u i f fd s s1 ∧ P a s1) s') :
    Keeps u may i (withItem fd body)
      (fun a s1 => s1.2.holder = some (i, f) ∧ Frame u i f none s s1 ∧ P a s1) s' := by
  refine Keeps.andThen hbody hinv' ?_
  rintro a s1 hinv1 ⟨hclosing, hp⟩
  have hclose : Keeps u may i (call (.close fd)) (fun _ s2 => s2.2.holder = some (i, f) ∧
      Frame u i f none s s2 ∧ P a s2) s1 := by
    refine keeps_section hclosing.holder ?_ ?_
    · rintro r s2 s3 hinv3 hk ⟨-, hframe, hp2⟩
      exact ⟨hk.holder, hframe.trans (hk.frame hinv3), hstays a s2 s3 hk.holder hk.calm.toSteady hp2⟩
    · intro s2 hinv2 hk
      obtain ⟨o, ho⟩ := (hclosing.kept hk hinv2).own
      have hclosing2 := hclosing.kept hk hinv2
      refine ⟨trivial, fun r w hexec _ => ?_⟩
      obtain ⟨-, rfl⟩ := Prod.mk.inj (Option.some.inj hexec)
      have hout : s2.2.holder ≠ some (i, fd) := by
        rw [hk.holder]
        rintro ⟨⟩
        exact hclosing.ne rfl
      have hmove : u.Move i (.close fd) r s2 (s2.1.setOpen fd none, s2.2) :=
        .close hinv2 ho hout hclosing2.unclaimed r
      have hd : Differs s2.1 (s2.1.setOpen fd none) fd none := ⟨rfl, rfl, rfl, rfl⟩
      refine ⟨s2.2, hmove, hk.holder, hk.holder, ?_, ?_⟩
      · exact (hclosing2.frame.trans (frame_setOpen hclosing.ne)).close hinv hfresh hmove.inv
          Kernel.setOpen_opened_self
      · exact hstays a s1 _ hk.holder (hk.calm.toSteady.trans (.of_differs hd)) hp
  refine Keeps.andThen hclose hinv1 ?_
  rintro r s2 - hpost
  apply keeps_pure
  intro s3 hrely hinv3
  have hk : Kept u i f s2 s3 := .of_rely hpost.1 hrely
  exact ⟨hk.holder, hpost.2.1.trans (hk.frame hinv3), hstays a s2 s3 hk.holder hk.calm.toSteady hpost.2.2⟩

end Rules

/-! ## Making an item -/

/-- The new file of `Filling`, made since `s`. -/
structure Making (u : Usage) (i f fd : Nat) (o : OpenFile) (bytes : List UInt8) (s s' : View) : Prop where
  filling : Filling u i f fd o bytes s'
  frame : Frame u i f (some fd) s s'
  fresh : Fresh u i fd s

theorem Making.kept {bytes : List UInt8} {s'' : View} (h : Making u i f fd o bytes s s')
    (hk : Kept u i f s' s'') (hinv : u.Inv s'') : Making u i f fd o bytes s s'' :=
  ⟨h.filling.kept hk, h.frame.trans (hk.frame hinv).weaken, h.fresh⟩

/-- The descriptor of a new file is not that of a claim. -/
theorem Filling.unclaimed {bytes : List UInt8} (h : Filling u i f fd o bytes s) (hinv : u.Inv s) :
    u.accounts = true → ∀ c ∈ s.2.pending, c.fd ≠ fd := by
  intro hacc c hc hfd
  obtain ⟨x, -, hx, -, -, hino, -⟩ := (hinv.books hacc).claim c hc
  rw [hfd, h.own.opened] at hx
  obtain rfl := Option.some.inj hx
  exact h.free hacc c hc hino.symm

theorem Making.closing {bytes : List UInt8} (h : Making u i f fd o bytes s s') (hinv : u.Inv s') :
    Closing u i f fd s s' :=
  ⟨h.filling.section_.holder, ⟨o, h.filling.own⟩, h.filling.ne, h.filling.unclaimed hinv, h.frame⟩

/-- What `create_key` leaves. -/
def Created (u : Usage) (i f : Nat) (s : View) : Option Nat → View → Prop
  | none, s' => InSection u i f 0 0 s' ∧ Frame u i f none s s'
  | some fd, s' => ∃ o, Making u i f fd o [] s s' ∧ o.lock = none

/-- A key under which the sizes can be accounted for. -/
def Proper (u : Usage) (key : Text) : Prop :=
  u.accounts = true → IsFileName key ∧ key ≠ cacheInfoName

/-- The pathname of a name leads into the cache directory. -/
theorem locate_keyFileName {fc : FileCache} {n : Text} (hdir : fc.cacheDir = u.dir) (hn : IsFileName n)
    {K : Kernel} {loc : List Text} (hloc : K.locate (fc.keyFileName n) = some loc) :
    loc = u.home ++ [n] := by
  rw [FileCache.keyFileName, hdir] at hloc
  exact locate_pathConcat u.noNul hn hloc

section Rules

variable {may : CacheOp → Prop} {bytes : List UInt8}

theorem createKey_keeps {fc : FileCache} {key : Text} (hsec : InSection u i f 0 0 s)
    (hdir : fc.cacheDir = u.dir) (hkey : Proper u key) : Keeps u may i (fc.createKey key) (Created u i f s) s := by
  refine keeps_section hsec.holder ?_ ?_
  · intro r s1 s2 hinv2 hk hpost
    cases r with
    | none => exact ⟨hpost.1.kept hk, hpost.2.trans (hk.frame hinv2)⟩
    | some fd =>
        obtain ⟨o, hmaking, hlock⟩ := hpost
        exact ⟨o, hmaking.kept hk hinv2, hlock⟩
  · intro s1 hinv1 hk
    refine ⟨trivial, fun r w hexec _ => ?_⟩
    have hsec1 := hsec.kept hk
    rcases Kernel.exec_create hexec with ⟨rfl, rfl⟩ | ⟨loc, hloc, hnew, rfl, rfl⟩
    · exact ⟨s1.2, .same hinv1 rfl, hk.holder, hsec1, hk.frame hinv1⟩
    · have hnames := Kernel.locate_names hloc
      have hmove := Move.addFile (c := .create (fc.keyFileName key)) (r := some s1.1.nextFd) hinv1 hnew
        hnames (.inl ⟨f, hk.holder⟩) rfl
      have hfilling := filling_addFile hinv1 hsec1 hnew hnames fun hacc =>
        ⟨key, locate_keyFileName hdir (hkey hacc).1 hloc, (hkey hacc).2⟩
      refine ⟨s1.2, hmove, hk.holder, _, ⟨hfilling, ?_, ?_⟩, rfl⟩
      · refine (hk.frame hinv1).weaken.trans (frame_of_opened ?_ ?_ _)
        · intro g x hx
          rw [Kernel.addFile_opened_of_ne (hinv1.next_ne hx)]
          exact hx
        · exact fun e he => List.mem_cons_of_mem _ he
      · intro x hx
        obtain ⟨y, hy, -⟩ := hinv1.exists_info hk.holder
        refine hinv1.fresh_next x (hk.own _ x ?_ hx)
        exact (hinv1.next_ne hy).symm

/-- Access times do not matter. -/
theorem quiet_atime (hinv : u.Inv s) (atime : Nat → Int64) : Quiet u s.1 { s.1 with atime := atime } where
  wf := { hinv.wf with }
  files := List.Perm.refl _
  opened := rfl
  data := fun _ _ => rfl
  folders := fun _ h => h
  outside := fun _ _ _ _ h => h

/-- `futimes` in the section. -/
theorem futimes_keeps {g : Nat} (hin : s.2.holder = some (i, f)) :
    Keeps u may i (call (.futimes g)) (fun _ s' => Kept u i f s s') s := by
  refine keeps_section hin (fun _ s1 s2 _ hk h => h.trans hk) ?_
  intro s1 hinv1 hk
  refine ⟨trivial, fun r w hexec _ => ?_⟩
  rw [Kernel.exec] at hexec
  split at hexec
  · obtain ⟨-, rfl⟩ := Prod.mk.inj (Option.some.inj hexec)
    exact ⟨s1.2, .same hinv1 rfl, hk.holder, hk⟩
  next o ho =>
    obtain ⟨-, rfl⟩ := Prod.mk.inj (Option.some.inj hexec)
    have hq := quiet_atime hinv1 (Function.update s1.1.atime o.ino s1.1.now)
    refine ⟨s1.2, ⟨hq.inv hinv1, rfl, fun j _ => hq.rely hinv1 j⟩, hk.holder, hk.trans ?_⟩
    exact .of_rely hk.holder (hq.rely hinv1 i)

/-- A lock on the file that nobody else has open is granted at once. -/
theorem flockNew_keeps (h : Making u i f fd o bytes s s') (hlock : o.lock = none) :
    Keeps u may i (call (.flock fd .exclusive false)) (fun r s1 =>
      r = true ∧ Making u i f fd { o with lock := some .exclusive } bytes s s1) s' := by
  refine keeps_section h.filling.section_.holder ?_ ?_
  · exact fun r s1 s2 hinv2 hk hpost => ⟨hpost.1, hpost.2.kept hk hinv2⟩
  · intro s1 hinv1 hk
    have hmaking := h.kept hk hinv1
    have hfilling := hmaking.filling
    have hnotInfo : ¬ u.OnInfo s1.1 fd := by
      rintro ⟨x, hx, hinfo⟩
      rw [hfilling.own.opened] at hx
      obtain rfl := Option.some.inj hx
      exact hfilling.notInfo hinfo
    -- there is no other descriptor for the file
    have hgrants : s1.1.grants fd o.ino .exclusive = true := by
      rw [Kernel.grants_iff hinv1.wf]
      intro g x hx hne hino
      exact absurd (hfilling.alone g x hx hino) hne
    have hexec : Kernel.exec i (.flock fd .exclusive false) s1.1 =
        some (true, s1.1.setOpen fd (some { o with lock := some .exclusive })) := by
      rw [Kernel.exec, hfilling.own.opened]
      exact if_pos hgrants
    refine ⟨⟨fun honInfo => absurd honInfo hnotInfo, ?_⟩, fun r w hx _ => ?_⟩
    · rw [hexec]
      exact fun _ => Option.some_ne_none _
    · rw [hexec] at hx
      obtain ⟨rfl, rfl⟩ := Prod.mk.inj (Option.some.inj hx)
      have hmove : u.Move i (.flock fd .exclusive false) true s1
          (s1.1.setOpen fd (some { o with lock := some .exclusive }), s1.2) :=
        .lockItem hinv1 hk.holder hfilling.own hfilling.notInfo hlock hgrants
      have hd : Differs s1.1 (s1.1.setOpen fd (some { o with lock := some .exclusive })) fd
          (some { o with lock := some .exclusive }) := ⟨rfl, rfl, rfl, rfl⟩
      refine ⟨s1.2, hmove, hk.holder, rfl, ⟨?_, hmaking.frame.trans (frame_setOpen hfilling.ne),
        hmaking.fresh⟩⟩
      refine ⟨hfilling.section_.steady hk.holder (.of_differs hd),
        ⟨Kernel.setOpen_opened_self, hfilling.own.opener, hfilling.own.unshared⟩, hfilling.ne,
        hfilling.notInfo, ?_, hfilling.content, hfilling.item, hfilling.free⟩
      intro g x hx hino
      by_cases hg : g = fd
      · exact hg
      · rw [hd.opened_ne hg] at hx
        exact hfilling.alone g x hx hino

/-- `lock_the_item` on a new item. -/
theorem lockNew_keeps (hinv : u.Inv s') (h : Making u i f fd o bytes s s') (hlock : o.lock = none) :
    Keeps u may i (lockTheItem fd .exclusive false) (fun r s1 =>
      r = true ∧ Making u i f fd { o with lock := some .exclusive } bytes s s1) s' := by
  refine (flockNew_keeps h hlock).andThen hinv ?_
  rintro r s1 hinv1 ⟨rfl, hmaking⟩
  refine (futimes_keeps hmaking.filling.section_.holder).andThen hinv1 ?_
  intro _ s2 hinv2 hk
  apply keeps_pure
  intro s3 hrely hinv3
  have hmaking2 := hmaking.kept hk hinv2
  exact ⟨rfl, hmaking2.kept (.of_rely hk.holder hrely) hinv3⟩

theorem InSection.unaccounted {a b : Nat} (hin : s.2.holder = some (i, f)) (hacc : u.accounts = false) :
    InSection u i f a b s := by
  refine ⟨hin, ?_⟩
  rw [hacc]
  exact nofun

/-- Where the sizes are not accounted for, it does not matter what is in the file. -/
theorem Making.unaccounted (h : Making u i f fd o bytes s s') (hacc : u.accounts = false)
    (bytes' : List UInt8) : Making u i f fd o bytes' s s' := by
  have hfilling := h.filling
  refine ⟨⟨.unaccounted hfilling.section_.holder hacc, hfilling.own, hfilling.ne, hfilling.notInfo,
    hfilling.alone, ?_, hfilling.item, hfilling.free⟩, h.frame, h.fresh⟩
  rw [hacc]
  exact nofun

/-- The new file after `more` has been written at its end. -/
theorem Filling.append (hinv : u.Inv s) (h : Filling u i f fd o bytes s) (more : List UInt8) :
    Filling u i f fd { o with offset := o.offset + more.length } (bytes ++ more)
      ((s.1.setData o.ino (overwrite (s.1.data o.ino) o.offset more)).setOpen fd
        (some { o with offset := o.offset + more.length }), s.2) := by
  have hd : Differs (s.1.setData o.ino (overwrite (s.1.data o.ino) o.offset more))
      ((s.1.setData o.ino (overwrite (s.1.data o.ino) o.offset more)).setOpen fd
        (some { o with offset := o.offset + more.length })) fd
      (some { o with offset := o.offset + more.length }) := ⟨rfl, rfl, rfl, rfl⟩
  have hdata : u.accounts = true →
      overwrite (s.1.data o.ino) o.offset more = bytes ++ more := by
    intro hacc
    obtain ⟨hdata, hoffset⟩ := h.content hacc
    rw [hdata, hoffset, overwrite_end]
  -- the section owes the bytes that have been written
  have hsec : InSection u i f (bytes ++ more).length 0
      (s.1.setData o.ino (overwrite (s.1.data o.ino) o.offset more), s.2) := by
    refine ⟨h.section_.holder, fun hacc => ?_⟩
    obtain ⟨n, hfile, hn⟩ := h.item hacc
    have hcounted : u.counted (s.1.setData o.ino (overwrite (s.1.data o.ino) o.offset more), s.2) +
        (s.1.data o.ino).length = u.counted s + (overwrite (s.1.data o.ino) o.offset more).length :=
      counted_setData hinv.wf hfile (isItem_name hn) (h.free hacc)
    have hbalance := h.section_.balance hacc
    rw [hdata hacc, (h.content hacc).1] at hcounted
    rw [recorded_setData_of_ne h.notInfo hinv.wf, hdata hacc]
    rw [List.length_append] at hcounted ⊢
    omega
  refine ⟨hsec.steady h.section_.holder (.of_differs (s := (s.1.setData o.ino _, s.2)) hd),
    ⟨Kernel.setOpen_opened_self, h.own.opener, h.own.unshared⟩, h.ne, h.notInfo, ?_, ?_, h.item, h.free⟩
  · intro g x hx hino
    by_cases hg : g = fd
    · exact hg
    · rw [Kernel.setOpen_opened_of_ne hg] at hx
      exact h.alone g x hx hino
  · intro hacc
    refine ⟨?_, ?_⟩
    · show (s.1.setData o.ino _).data o.ino = bytes ++ more
      rw [Kernel.setData_data_self, hdata hacc]
    · show o.offset + more.length = (bytes ++ more).length
      rw [(h.content hacc).2, List.length_append]

/-- Writing to the new file. -/
theorem writeNew_keeps (h : Making u i f fd o bytes s s') (more : List UInt8) :
    Keeps u may i (call (.write fd more)) (fun r s1 =>
      (u.accounts = true → r = some more.length) ∧
        ∃ o', Making u i f fd o' (bytes ++ more) s s1) s' := by
  refine keeps_section h.filling.section_.holder ?_ ?_
  · rintro r s1 s2 hinv2 hk ⟨hr, o', hmaking⟩
    exact ⟨hr, o', hmaking.kept hk hinv2⟩
  · intro s1 hinv1 hk
    have hmaking := h.kept hk hinv1
    have hfilling := hmaking.filling
    refine ⟨trivial, fun r w hexec htidy => ?_⟩
    rcases Kernel.exec_write hfilling.own.opened hexec with ⟨rfl, hused, rfl⟩ | ⟨rfl, rfl⟩
    · have hsmall : u.accounts = true → itemBytes u.home
          (s1.1.setData o.ino (overwrite (s1.1.data o.ino) o.offset more)) < 2 ^ 64 :=
        fun _ => Nat.lt_of_le_of_lt (itemBytes_le_used _ _) hused
      obtain ⟨hinv2, hothers⟩ := Move.fill (overwrite (s1.1.data o.ino) o.offset more) hinv1
        hfilling.notInfo hsmall (.inl ⟨⟨f, hk.holder⟩, hfilling.free⟩)
      have hmove := Move.offset (c := .write fd more) (r := some more.length) hinv2 hfilling.own.opened
        (.inl ⟨hfilling.own.opener, hfilling.own.unshared⟩) (o.offset + more.length) rfl
      refine ⟨s1.2, .after hothers hmove rfl, hk.holder, fun _ => rfl, _, hfilling.append hinv1 more, ?_,
        hmaking.fresh⟩
      exact (hmaking.frame.trans (frame_setData _)).trans (frame_setOpen hfilling.ne)
    · have hacc : u.accounts = false := by
        rw [← Bool.not_eq_true]
        intro hacc
        cases (htidy hacc).1
      refine ⟨s1.2, .same hinv1 rfl, hk.holder, ?_, o, hmaking.unaccounted hacc _⟩
      rw [hacc]
      exact nofun

/-- The loop of `put`. -/
theorem copyPieces_keeps (hinv : u.Inv s') (h : Making u i f fd o bytes s s')
    (pieces : List (List UInt8)) :
    Keeps u may i (FileCache.copyPieces fd pieces) (fun r s1 =>
      (u.accounts = true → r = true) ∧
        ∃ o', Making u i f fd o' (bytes ++ pieces.flatten) s s1) s' := by
  induction pieces generalizing o bytes s' with
  | nil =>
      apply keeps_pure
      intro s1 hrely hinv1
      rw [List.flatten_nil, List.append_nil]
      exact ⟨fun _ => rfl, o, h.kept (.of_rely h.filling.section_.holder hrely) hinv1⟩
  | cons buf rest ih =>
      refine (writeNew_keeps h buf).andThen hinv ?_
      rintro r s1 hinv1 ⟨hr, o', hmaking⟩
      rw [List.flatten_cons, ← List.append_assoc]
      split
      · exact ih hinv1 hmaking
      next hne =>
        have hacc : u.accounts = false := by
          rw [← Bool.not_eq_true]
          exact fun hacc => hne (hr hacc)
        apply keeps_pure
        intro s2 hrely hinv2
        refine ⟨?_, o', ?_⟩
        · rw [hacc]
          exact nofun
        · exact (hmaking.kept (.of_rely hmaking.filling.section_.holder hrely) hinv2).unaccounted hacc _

end Rules

/-! ## Sizes of open files -/

section Rules

variable {may : CacheOp → Prop}

/-- `get_file_size` of a file that nobody else writes to. -/
theorem getFileSize_keeps (hin : s.2.holder = some (i, f)) (hown : Own u i fd o s) (hne : fd ≠ f)
    (hsame : u.accounts = true → ∀ s', Kept u i f s s' → s'.1.data o.ino = s.1.data o.ino)
    (hinv : u.Inv s) :
    Keeps u may i (getFileSize fd) (fun n s' => Kept u i f s s' ∧
      (u.accounts = true → n = (s.1.data o.ino).length)) s := by
  refine (look_keeps (u := u) (c := .fstat fd) hin
    (fun K => (K.opened fd).map fun o => (K.data o.ino).length) (fun _ => rfl) (fun _ _ => trivial)
    (fun _ _ => rfl)).andThen hinv ?_
  rintro r s1 - ⟨s2, -, hk, rfl, hk'⟩
  apply keeps_pure
  intro s3 hrely hinv3
  have hk1 := hk.trans hk'
  refine ⟨hk1.trans (.of_rely hk1.holder hrely), fun hacc => ?_⟩
  rw [(hk.own fd o hne hown).opened]
  exact congrArg List.length (hsame hacc s2 hk)

end Rules

end Usage

end Skunk.BesUtils
