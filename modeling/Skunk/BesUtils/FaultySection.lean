import Skunk.BesUtils.FaultyCache

/-!
# In the section, when calls fail

What a client that holds the lock of the cache does, call by call. `At` is what it keeps up: it is in the
section, the bytes that it has freed are still recorded, and what it had before it still has.
-/

namespace Skunk.BesUtils

open Effect Posix

namespace Faulty

/-! ## Rules for calls -/

section Rules

variable {u : Usage} {i : Nat} {op : CacheOp} {t : Session} {α β : Type} {s : View}

/-- In the operation `op` the client keeps the protocol, and `Q` holds when the program returns. -/
abbrev Keeps (u : Usage) (i : Nat) (op : CacheOp) (t : Session) (p : Sys α) (Q : α → View → Prop)
    (s : View) : Prop :=
  Machine.Keeps (soundClients u.dir) (protocol u) i op t p Q s

/-- The rule for a call that may fail: it is harmless at whatever moment it is made. -/
theorem keeps_call {c : SysCall} {k : c.Reply → Sys α} {Q : α → View → Prop}
    (h : ∀ s', Rely u i s s' → Inv u s' → Safe c ∧
      ∀ r w, Kernel.Does mayFail i c s'.1 r w → sound u.home op t c s'.1 r w = true →
        ∃ g, Move u i s' (w, g) ∧ Keeps u i op t (k r) Q (w, g)) :
    Keeps u i op t (call c >>= k) Q s := by
  intro s' hrely hinv
  obtain ⟨hsafe, hnext⟩ := h s' hrely hinv
  refine ⟨hsafe, fun fault r w hexec hsound => ?_⟩
  obtain ⟨g, hmove, hrest⟩ := hnext r w ⟨fault, hexec⟩ hsound.2
  exact ⟨g, hmove.inv, trivial, hmove.others, hrest⟩

theorem keeps_pure {a : α} {Q : α → View → Prop} (h : ∀ s', Rely u i s s' → Inv u s' → Q a s') :
    Keeps u i op t (pure a) Q s := h

theorem Keeps.andThen {p : Sys α} {k : α → Sys β} {P : α → View → Prop} {Q : β → View → Prop}
    (h : Keeps u i op t p P s) (hinv : Inv u s) (hk : ∀ a s', Inv u s' → P a s' → Keeps u i op t (k a) Q s') :
    Keeps u i op t (p >>= k) Q s :=
  Machine.Keeps.bind hinv (Machine.Keeps.mono h hk)

/-- A call that does not fail is executed. -/
theorem exec_of_mayFail {c : SysCall} {K K' : Kernel} {r : c.Reply} (hc : mayFail c = false)
    (h : Kernel.Does mayFail i c K r K') : Kernel.exec i c K = some (r, K') := by
  rcases Kernel.does_iff.mp h with h | ⟨hmay, -⟩
  · exact h
  · rw [hc] at hmay
    cases hmay

end Rules

variable {u : Usage} {i f fd n d : Nat} {x : Option Nat} {op : CacheOp} {t : Session}
  {s₀ s s' s'' : View} {o : OpenFile}

/-! ## What is kept up -/

/-- What a client in its section keeps while it changes nothing but its place in `cache_info`. -/
structure Kept (u : Usage) (i f : Nat) (s s' : View) : Prop where
  inside : Inside u s'.1 i f
  own : ∀ g o, g ≠ f → s.1.opened g = some o → o.opener = i → s'.1.opened g = some o
  next : s.1.nextFd ≤ s'.1.nextFd
  claims : ∀ c : Pending, c.client = i → (c ∈ s'.2.pending ↔ c ∈ s.2.pending)
  claimed : ∀ c ∈ s.2.pending, c.client = i → s'.1.data c.ino = s.1.data c.ino
  still : Still u s s'

theorem Kept.of_rely (hin : Inside u s.1 i f) (h : Rely u i s s') : Kept u i f s s' :=
  ⟨h.inside hin, fun g o _ => h.own g o, h.next, h.claims, h.claimed, h.still f hin⟩

theorem Kept.refl (hin : Inside u s.1 i f) : Kept u i f s s := .of_rely hin (.refl i s)

theorem Kept.trans (h : Kept u i f s s') (h' : Kept u i f s' s'') : Kept u i f s s'' where
  inside := h'.inside
  own := fun g o hg ho hi => h'.own g o hg (h.own g o hg ho hi) hi
  next := Nat.le_trans h.next h'.next
  claims := fun c hc => (h'.claims c hc).trans (h.claims c hc)
  claimed := fun c hc hi => (h'.claimed c ((h.claims c hi).mpr hc) hi).trans (h.claimed c hc hi)
  still := h.still.trans h'.still

/-- Moving in `cache_info`. -/
theorem offset_info (h : Inv u s) (hin : Inside u s.1 i f) (ho : s.1.opened f = some o) (pos : Nat) :
    Move u i s (s.1.setOpen f (some { o with offset := pos }), s.2) ∧
      Kept u i f s (s.1.setOpen f (some { o with offset := pos }), s.2) := by
  obtain ⟨y, hy, hi, hinfo, hlock⟩ := hin
  rw [ho] at hy
  obtain rfl := Option.some.inj hy
  have hd : Usage.Differs s.1 (s.1.setOpen f (some { o with offset := pos })) f
      (some { o with offset := pos }) := ⟨rfl, rfl, rfl, rfl⟩
  refine ⟨.offset h ho hi pos, ⟨_, Kernel.setOpen_opened_self, hi, hinfo, hlock⟩, ?_, Nat.le_refl _,
    fun _ _ => Iff.rfl, fun _ _ _ => rfl, .of_differs hd⟩
  intro g y hg hy _
  rw [Kernel.setOpen_opened_of_ne hg]
  exact hy

/-- The client is in its section since `s₀`, where descriptors below `n` were open. It has freed `d` bytes
that are still recorded, and what it had, but for the claim under `x`, it still has. -/
structure At (u : Usage) (i f n : Nat) (x : Option Nat) (d : Nat) (s₀ s : View) : Prop where
  inside : Inside u s.1 i f
  room : u.counted s + d ≤ u.recorded s
  next : n ≤ s.1.nextFd
  own : ∀ g o, g < n → g ≠ f → s₀.1.opened g = some o → o.opener = i → s.1.opened g = some o
  claims : ∀ c : Pending, c.client = i → c.fd < n → x ≠ some c.fd →
    (c ∈ s.2.pending ↔ c ∈ s₀.2.pending)

theorem At.kept (h : At u i f n x d s₀ s) (hk : Kept u i f s s') : At u i f n x d s₀ s' where
  inside := hk.inside
  room := by
    rw [hk.still.recorded]
    exact Nat.le_trans (Nat.add_le_add_right hk.still.counted d) h.room
  next := Nat.le_trans h.next hk.next
  own := fun g o hg hne ho hi => hk.own g o hne (h.own g o hg hne ho hi) hi
  claims := fun c hc hlt hx => (hk.claims c hc).trans (h.claims c hc hlt hx)

theorem At.rely (h : At u i f n x d s₀ s) (hrely : Rely u i s s') : At u i f n x d s₀ s' :=
  h.kept (.of_rely h.inside hrely)

/-- A new descriptor of the client. -/
structure Held (i f n fd : Nat) (o : OpenFile) (s : View) : Prop where
  opened : s.1.opened fd = some o
  opener : o.opener = i
  new : n ≤ fd
  ne : fd ≠ f

theorem Held.kept (h : Held i f n fd o s) (hk : Kept u i f s s') : Held i f n fd o s' :=
  ⟨hk.own fd o h.ne h.opened h.opener, h.opener, h.new, h.ne⟩

/-- The claims under a descriptor of a client are its own. -/
theorem Inv.client_eq (h : Inv u s) (ho : s.1.opened fd = some o) (hi : o.opener = i) {c : Pending}
    (hc : c ∈ s.2.pending) (hfd : c.fd = fd) : c.client = i := by
  obtain ⟨y, hy, hclient, -⟩ := h.claim c hc
  rw [hfd, ho] at hy
  obtain rfl := Option.some.inj hy
  exact hclient.symm.trans hi

/-- A new description changes in any way, but for one with a claim. -/
theorem Held.change {K' : Kernel} {o' : Option OpenFile} (hheld : Held i f n fd o s) (h : Inv u s)
    (hat : At u i f n x d s₀ s) (hwf : K'.Wf) (hd : Usage.Differs s.1 K' fd o') (hnext : K'.nextFd = s.1.nextFd)
    (hkeep : (∃ c ∈ s.2.pending, c.fd = fd) → ∃ y, o' = some y ∧ Usage.SameFile o y) :
    Move u i s (K', s.2) ∧ At u i f n x d s₀ (K', s.2) := by
  constructor
  · refine .of_differs h hwf hd (Nat.le_of_eq hnext.symm) ?_ ?_
    · intro y hy
      rw [hheld.opened] at hy
      obtain rfl := Option.some.inj hy
      exact hheld.opener
    · intro hclaim y hy
      rw [hheld.opened] at hy
      obtain rfl := Option.some.inj hy
      exact hkeep hclaim
  · obtain ⟨y, hy, hi, hinfo, hlock⟩ := hat.inside
    refine ⟨⟨y, by rw [hd.opened_ne (Ne.symm hheld.ne), hy], hi, (hd.isInfo _).mpr hinfo, hlock⟩, ?_, ?_, ?_,
      hat.claims⟩
    · rw [hd.recorded, hd.counted]
      exact hat.room
    · rw [hnext]
      exact hat.next
    · intro g z hg hne hz hzi
      rw [hd.opened_ne (Nat.ne_of_lt (Nat.lt_of_lt_of_le hg hheld.new))]
      exact hat.own g z hg hne hz hzi

/-! ## The recorded size -/

/-- Calls that change nothing. -/
def asks : SysCall → Bool
  | .stat _ | .fstat _ | .source _ | .readdir _ | .subtract _ _ => true
  | _ => false

theorem eq_of_asks {c : SysCall} {K K' : Kernel} {r : c.Reply} (hc : asks c = true)
    (h : Kernel.Does mayFail i c K r K') : K' = K := by
  cases c with
  | stat | fstat | source | readdir | subtract =>
      rcases Kernel.does_iff.mp h with h | ⟨-, _ | _, h⟩ <;>
      · obtain ⟨-, rfl⟩ := Prod.mk.inj (Option.some.inj h)
        rfl
  | _ => cases hc

/-- A call that changes nothing tells something about a moment between. -/
theorem ask_keeps {c : SysCall} (hc : asks c = true) (hsafe : Safe c) (hin : Inside u s.1 i f) :
    Keeps u i op t (call c) (fun r s' => ∃ s1, Inv u s1 ∧ Kept u i f s s1 ∧
      Kernel.Does mayFail i c s1.1 r s1.1 ∧ sound u.home op t c s1.1 r s1.1 = true ∧ Kept u i f s1 s') s := by
  refine keeps_call fun s1 hrely hinv => ⟨hsafe, fun r w hdoes hsound => ?_⟩
  obtain rfl := eq_of_asks hc hdoes
  refine ⟨s1.2, .same hinv, keeps_pure fun s2 hrely2 _ => ?_⟩
  have hk : Kept u i f s s1 := .of_rely hin hrely
  exact ⟨s1, hinv, hk, hdoes, hsound, .of_rely hk.inside hrely2⟩

/-- Going to the front of `cache_info`. -/
theorem seekInfo_keeps {α : Type} {k : Bool → Sys α} {Q : α → View → Prop} (hin : Inside u s.1 i f)
    (hrest : ∀ s' o, Kept u i f s s' → Inv u s' → s'.1.opened f = some o → o.opener = i → o.offset = 0 →
      u.IsInfo s'.1 o.ino → Keeps u i op t (k true) Q s') :
    Keeps u i op t (call (.seek f 0) >>= k) Q s := by
  refine keeps_call fun s1 hrely hinv => ⟨trivial, fun r w hdoes _ => ?_⟩
  have hk : Kept u i f s s1 := .of_rely hin hrely
  obtain ⟨o, ho, hi, hinfo, -⟩ := hk.inside
  have hexec := exec_of_mayFail rfl hdoes
  rw [Kernel.exec_seek ho] at hexec
  obtain ⟨rfl, rfl⟩ := Prod.mk.inj (Option.some.inj hexec)
  obtain ⟨hmove, hk'⟩ := offset_info hinv hk.inside ho 0
  exact ⟨s1.2, hmove, hrest _ _ (hk.trans hk') hmove.inv Kernel.setOpen_opened_self hi rfl hinfo⟩

/-- Of what is read, all is there or it is not enough for a size. -/
theorem readSize_of_does {K K' : Kernel} {r : Option (List UInt8)} (ho : K.opened f = some o)
    (hoffset : o.offset = 0) (h : Kernel.Does mayFail i (.read f 8) K r K') :
    (readSize r = sizeIn (K.data o.ino) ∨ readSize r = 0) ∧
      (K' = K ∨ ∃ pos, K' = K.setOpen f (some { o with offset := pos })) := by
  rcases Kernel.does_iff.mp h with h | ⟨-, φ, h⟩
  · rw [Kernel.exec_read ho, hoffset, List.drop_zero] at h
    obtain ⟨rfl, rfl⟩ := Prod.mk.inj (Option.some.inj h)
    exact ⟨.inl (sizeIn_take _), .inr ⟨_, rfl⟩⟩
  · cases φ with
    | refused =>
        obtain ⟨rfl, rfl⟩ := Prod.mk.inj (Option.some.inj h)
        exact ⟨.inr rfl, .inl rfl⟩
    | short m =>
        rw [Kernel.falter] at h
        split at h
        next hm =>
          rw [Kernel.exec_read ho, hoffset, List.drop_zero] at h
          obtain ⟨rfl, rfl⟩ := Prod.mk.inj (Option.some.inj h)
          refine ⟨.inr ?_, .inr ⟨_, rfl⟩⟩
          rw [readSize, if_neg]
          rw [List.length_take]
          omega
        · obtain ⟨rfl, rfl⟩ := Prod.mk.inj (Option.some.inj h)
          exact ⟨.inr rfl, .inl rfl⟩

/-- A purge of a cache with a maximum size does nothing if it reads zero. -/
def Forgives (op : CacheOp) (t : Session) : Prop := op = .purge ∧ 0 < t.cache.maxCacheSizeInBytes

theorem sound_read {K K' : Kernel} {r : Option (List UInt8)} {m : Nat}
    (h : sound u.home op t (.read f m) K r K' = true) :
    readSize r = recordedSize u.home K ∨ Forgives op t := by
  cases op with
  | purge =>
      have hor := (Bool.or_eq_true _ _).mp h
      exact hor.imp of_decide_eq_true fun hmax => ⟨rfl, of_decide_eq_true hmax⟩
  | _ => exact .inl (of_decide_eq_true h)

/-- `get_cache_info_size` reads the recorded size, or zero where that does no harm. -/
theorem getCacheInfoSize_keeps (hin : Inside u s.1 i f) :
    Keeps u i op t (getCacheInfoSize f) (fun v s' => Kept u i f s s' ∧
      (v = u.recorded s' ∨ v = 0 ∧ Forgives op t)) s := by
  refine seekInfo_keeps hin fun s1 o hk hinv ho hi hoffset hinfo => ?_
  refine keeps_call fun s2 hrely hinv2 => ⟨trivial, fun r w hdoes hsound => ?_⟩
  have hk2 : Kept u i f s1 s2 := .of_rely hk.inside hrely
  have ho2 : s2.1.opened f = some o := hrely.own f o ho hi
  obtain ⟨hsize, hw⟩ := readSize_of_does ho2 hoffset hdoes
  have hrecorded : u.recorded s2 = sizeIn (s2.1.data o.ino) :=
    Usage.recorded_eq hinv2.wf (hrely.info _ hinfo)
  have hvalue : readSize r = u.recorded s2 ∨ readSize r = 0 ∧ Forgives op t := by
    rw [hrecorded]
    rcases sound_read hsound with hread | hforgives
    · refine .inl ?_
      rw [← hrecorded]
      exact hread
    · exact hsize.imp_right fun hzero => ⟨hzero, hforgives⟩
  have hend : ∀ s3, Move u i s2 (w, s2.2) → Kept u i f s2 (w, s2.2) → Rely u i (w, s2.2) s3 →
      Kept u i f s s3 ∧ (readSize r = u.recorded s3 ∨ readSize r = 0 ∧ Forgives op t) := by
    intro s3 _ hk3 hrely3
    have hk4 := hk3.trans (.of_rely hk3.inside hrely3)
    rw [hk4.still.recorded]
    exact ⟨(hk.trans hk2).trans hk4, hvalue⟩
  have hmoved : Move u i s2 (w, s2.2) ∧ Kept u i f s2 (w, s2.2) := by
    rcases hw with rfl | ⟨pos, rfl⟩
    · exact ⟨.same hinv2, .refl hk2.inside⟩
    · exact offset_info hinv2 hk2.inside ho2 pos
  refine ⟨s2.2, hmoved.1, ?_⟩
  cases r with
  | none => exact keeps_pure fun s3 hrely3 _ => hend s3 hmoved.1 hmoved.2 hrely3
  | some bytes => exact keeps_pure fun s3 hrely3 _ => hend s3 hmoved.1 hmoved.2 hrely3

/-- The claims that are left when those under `x` are settled. -/
def settled (x : Option Nat) (g : Ghost) : Ghost :=
  match x with
  | none => g
  | some fd => without fd g

theorem mem_settled {g : Ghost} {c : Pending} :
    c ∈ (settled x g).pending ↔ c ∈ g.pending ∧ x ≠ some c.fd := by
  cases x with
  | none => simp [settled]
  | some fd =>
      rw [settled, mem_without]
      exact and_congr_right fun _ => ⟨fun hne heq => hne (Option.some.inj heq).symm,
        fun hne heq => hne (by rw [heq])⟩

/-- What holds when the recorded size has been written. -/
structure Updated (u : Usage) (i f : Nat) (x : Option Nat) (s s' : View) : Prop where
  inside : Inside u s'.1 i f
  own : ∀ g o, g ≠ f → s.1.opened g = some o → o.opener = i → s'.1.opened g = some o
  next : s.1.nextFd ≤ s'.1.nextFd
  claims : ∀ c : Pending, c.client = i → (c ∈ s'.2.pending ↔ c ∈ s.2.pending ∧ x ≠ some c.fd)

theorem Updated.kept (h : Updated u i f x s s') (hk : Kept u i f s' s'') : Updated u i f x s s'' where
  inside := hk.inside
  own := fun g o hg ho hi => hk.own g o hg (h.own g o hg ho hi) hi
  next := Nat.le_trans h.next hk.next
  claims := fun c hc => (hk.claims c hc).trans (h.claims c hc)

theorem Kept.updated (hk : Kept u i f s s') (h : Updated u i f x s' s'') : Updated u i f x s s'' where
  inside := h.inside
  own := fun g o hg ho hi => h.own g o hg (hk.own g o hg ho hi) hi
  next := Nat.le_trans hk.next h.next
  claims := fun c hc => (h.claims c hc).trans (and_congr_left fun _ => hk.claims c hc)

/-- The operation records sizes under the lock of the cache. -/
def Records : CacheOp → Prop
  | .initCache _ _ _ | .writePutItem _ _ => False
  | _ => True

theorem sound_write {K K' : Kernel} {r : Option Nat} {bytes : List UInt8} (hop : Records op)
    (hinfo : onInfo u.home K f = true) (h : sound u.home op t (.write f bytes) K r K' = true) :
    decodeBytes bytes ≤ recordedSize u.home K' := by
  have hif : ∀ {p : Bool}, (if onInfo u.home K f then decide (decodeBytes bytes ≤ recordedSize u.home K')
      else p) = true → decodeBytes bytes ≤ recordedSize u.home K' := by
    intro p hp
    rw [if_pos hinfo] at hp
    exact of_decide_eq_true hp
  cases op with
  | initCache | writePutItem => exact False.elim hop
  | _ => exact hif h

theorem setData_self (K : Kernel) (ino : Nat) : K.setData ino (K.data ino) = K := by
  rw [Kernel.setData, Function.update_eq_self]

/-- `update_cache_info_size` with a size that is enough for what then counts. -/
theorem updateCacheInfoSize_keeps {size : Nat} (hop : Records op) (hin : Inside u s.1 i f)
    (hlt : size < 2 ^ 64) (hmine : ∀ fd, x = some fd → ∃ o, s.1.opened fd = some o ∧ o.opener = i ∧ fd ≠ f)
    (henough : ∀ s', Inv u s' → Kept u i f s s' → u.counted (s'.1, settled x s'.2) ≤ size) :
    Keeps u i op t (updateCacheInfoSize f size) (fun _ s' => Updated u i f x s s') s := by
  refine seekInfo_keeps hin fun s1 o hk hinv ho hi hoffset hinfo => ?_
  refine keeps_call fun s2 hrely hinv2 => ⟨trivial, fun r w hdoes hsound => ?_⟩
  have hk2 : Kept u i f s s2 := hk.trans (.of_rely hk.inside hrely)
  have ho2 : s2.1.opened f = some o := hrely.own f o ho hi
  have hinfo2 : u.IsInfo s2.1 o.ino := hrely.info _ hinfo
  have hon : onInfo u.home s2.1 f = true := by
    rw [onInfo, ho2]
    exact decide_eq_true hinfo2
  have hrecords : size ≤ recordedSize u.home w := by
    have hle := sound_write hop hon hsound
    rwa [decodeBytes_encodeSize hlt] at hle
  have hothers : ∀ c ∈ s2.2.pending, c.client ≠ i → c ∈ (settled x s2.2).pending := by
    intro c hc hci
    refine mem_settled.mpr ⟨hc, fun hx => ?_⟩
    obtain ⟨y, hy, hyi, hne⟩ := hmine c.fd hx
    exact hci (hinv2.client_eq (hk2.own c.fd y hne hy hyi) hyi hc rfl)
  -- what the file then holds, whether anything was written or not
  have hrecord : ∀ bytes, size ≤ sizeIn bytes →
      Move u i s2 (s2.1.setData o.ino bytes, settled x s2.2) ∧
        Updated u i f x s2 (s2.1.setData o.ino bytes, settled x s2.2) := by
    intro bytes hbytes
    have hsub : ∀ c ∈ (settled x s2.2).pending, c ∈ s2.2.pending := fun c hc => (mem_settled.mp hc).1
    have hghost : settled x s2.2 = { s2.2 with pending := (settled x s2.2).pending } := by
      cases x <;> rfl
    refine ⟨?_, hk2.inside, fun _ _ _ hy _ => hy, Nat.le_refl _, fun c _ => mem_settled⟩
    rw [hghost]
    refine Move.record bytes hinv2 hk2.inside hinfo2 hsub hothers ?_
    rw [← hghost]
    exact Nat.le_trans (henough s2 hinv2 hk2) hbytes
  rcases Kernel.does_write ho2 hdoes with ⟨rfl, rfl⟩ | ⟨m, -, rfl, -, rfl⟩
  · -- nothing was written, but what is there is enough
    have hbytes : size ≤ sizeIn (s2.1.data o.ino) := by
      rw [← Usage.recorded_eq (s := s2) hinv2.wf hinfo2]
      exact hrecords
    obtain ⟨hmove, hupdated⟩ := hrecord _ hbytes
    rw [setData_self] at hmove hupdated
    refine ⟨settled x s2.2, hmove, keeps_pure fun s3 hrely3 _ => ?_⟩
    exact hk2.updated (hupdated.kept (.of_rely hupdated.inside hrely3))
  · have hbytes : size ≤ sizeIn (overwrite (s2.1.data o.ino) o.offset ((encodeSize size).take m)) := by
      have hrecorded := Usage.recorded_eq (u := u)
        (s := (s2.1.setData o.ino (overwrite (s2.1.data o.ino) o.offset ((encodeSize size).take m)), s2.2))
        (hinv2.wf.setData _ _) hinfo2
      rw [Kernel.setData_data_self] at hrecorded
      rw [← hrecorded]
      exact hrecords
    obtain ⟨hmove, hupdated⟩ := hrecord _ hbytes
    obtain ⟨hmove', hk3⟩ := offset_info hmove.inv hupdated.inside ho2 (o.offset + m)
    refine ⟨settled x s2.2, hmove.trans hmove', keeps_pure fun s4 hrely4 _ => ?_⟩
    exact hk2.updated (hupdated.kept (hk3.trans (.of_rely hk3.inside hrely4)))

end Faulty

end Skunk.BesUtils
