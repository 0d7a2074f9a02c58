import Skunk.BesUtils.CacheMoves

/-!
# Inside the locked section

What the pieces of the operations do: taking the lock, reading and writing the recorded size, creating,
opening, locking, writing and removing items. Each is stated for a client that holds the lock of the
cache, by what is true when the piece returns.

`Kept` is what the others leave to such a client, and what it leaves to itself as long as it only looks
around or moves in `cache_info`. `Frame` is what is left of the client's own items across any piece.
-/

namespace Skunk.BesUtils

open Effect Posix

namespace Usage

variable {u : Usage} {i f : Nat}

/-- A descriptor through which the client may lock the cache. -/
def InfoFd (u : Usage) (i f : Nat) (s : View) : Prop :=
  ∃ o, s.1.opened f = some o ∧ u.IsInfo s.1 o.ino ∧
    (u.shared = some f ∨ u.shared = none ∧ o.opener = i)

/-- What is left of the client's descriptors and claims, but for `mod`. -/
structure Frame (u : Usage) (i f : Nat) (mod : Option Nat) (s s' : View) : Prop where
  own : ∀ fd o, mod ≠ some fd → fd ≠ f → Own u i fd o s → Own u i fd o s'
  info : InfoFd u i f s → InfoFd u i f s'
  file : ∀ ino, u.IsInfo s.1 ino → u.IsInfo s'.1 ino
  claims : ∀ c : Pending, c.client = i → mod ≠ some c.fd → (c ∈ s'.2.pending ↔ c ∈ s.2.pending)

theorem Frame.refl (mod : Option Nat) (s : View) : Frame u i f mod s s :=
  ⟨fun _ _ _ _ h => h, fun h => h, fun _ h => h, fun _ _ _ => Iff.rfl⟩

theorem Frame.trans {mod : Option Nat} {s s' s'' : View} (h : Frame u i f mod s s')
    (h' : Frame u i f mod s' s'') : Frame u i f mod s s'' where
  own := fun fd o hmod hf ho => h'.own fd o hmod hf (h.own fd o hmod hf ho)
  info := fun hi => h'.info (h.info hi)
  file := fun ino hino => h'.file ino (h.file ino hino)
  claims := fun c hc hmod => (h'.claims c hc hmod).trans (h.claims c hc hmod)

theorem Frame.weaken {mod : Option Nat} {s s' : View} (h : Frame u i f none s s') :
    Frame u i f mod s s' :=
  ⟨fun fd o _ => h.own fd o nofun, h.info, h.file, fun c hc _ => h.claims c hc nofun⟩

theorem Own.of_rely {fd : Nat} {o : OpenFile} {s s' : View} (h : Own u i fd o s)
    (hrely : u.Rely i s s') : Own u i fd o s' :=
  ⟨hrely.own fd o h.opened h.opener h.unshared, h.opener, h.unshared⟩

theorem InfoFd.of_rely {s s' : View} (h : InfoFd u i f s) (hrely : u.Rely i s s') :
    InfoFd u i f s' := by
  obtain ⟨o, ho, hinfo, hsh | ⟨hsh, hi⟩⟩ := h
  · obtain ⟨o', ho', hino⟩ := hrely.shared f o hsh ho
    exact ⟨o', ho', by rw [hino]; exact hrely.info _ hinfo, .inl hsh⟩
  · have hunshared : u.shared ≠ some f := by rw [hsh]; exact nofun
    exact ⟨o, hrely.own f o ho hi hunshared, hrely.info _ hinfo, .inr ⟨hsh, hi⟩⟩

theorem Frame.of_rely {s s' : View} (h : u.Rely i s s') : Frame u i f none s s' :=
  ⟨fun _ _ _ _ ho => ho.of_rely h, fun hi => hi.of_rely h, h.info, fun c hc _ => h.claims c hc⟩

/-- What a client in its section keeps while it makes no changes. -/
structure Kept (u : Usage) (i f : Nat) (s s' : View) : Prop where
  holder : s'.2.holder = some (i, f)
  own : ∀ fd o, fd ≠ f → Own u i fd o s → Own u i fd o s'
  calm : u.Calm s s'
  claimed : u.accounts = true → ∀ c ∈ s.2.pending, c.client = i → s'.1.data c.ino = s.1.data c.ino

theorem Kept.refl {s : View} (hin : s.2.holder = some (i, f)) : Kept u i f s s :=
  ⟨hin, fun _ _ _ h => h, Calm.refl s, fun _ _ _ _ => rfl⟩

theorem Kept.trans {s s' s'' : View} (h : Kept u i f s s') (h' : Kept u i f s' s'') :
    Kept u i f s s'' where
  holder := h'.holder
  own := fun fd o hf ho => h'.own fd o hf (h.own fd o hf ho)
  calm := h.calm.trans h'.calm
  claimed := by
    intro hacc c hc hi
    rw [h'.claimed hacc c (by rw [h.calm.pending]; exact hc) hi, h.claimed hacc c hc hi]

theorem Kept.of_rely {s s' : View} (hin : s.2.holder = some (i, f)) (h : u.Rely i s s') :
    Kept u i f s s' :=
  ⟨(h.inside f).mpr hin, fun _ _ _ ho => ho.of_rely h, (h.still f hin).2, h.claimed⟩

/-- The holder's descriptor is one for `cache_info`. -/
theorem Inv.infoFd {s : View} (h : u.Inv s) (hin : s.2.holder = some (i, f)) : InfoFd u i f s := by
  obtain ⟨o, ho, hinfo, -, hwho⟩ := h.holds i f hin
  exact ⟨o, ho, hinfo, hwho⟩

theorem Kept.frame {s s' : View} (h : Kept u i f s s') (hinv : u.Inv s') : Frame u i f none s s' where
  own := fun fd o _ hf ho => h.own fd o hf ho
  info := fun _ => hinv.infoFd h.holder
  file := fun ino hino => (h.calm.isInfo ino).mpr hino
  claims := fun c _ _ => by rw [h.calm.pending]

/-- What counts stays the same. -/
theorem Steady.counted {s s' : View} (h : u.Steady s s') (hacc : u.accounts = true) :
    u.counted s' = u.counted s := by
  rw [Usage.counted, Usage.counted, ← (h.files.map _).sum_eq]
  congr 1
  apply List.map_congr_left
  intro e he
  rw [weight, weight, h.pending]
  by_cases hx : IsItem u.home e.1 ∧ ∀ c ∈ s.2.pending, c.ino ≠ e.2
  · rw [if_pos hx, if_pos hx, h.data hacc e (h.files.mem_iff.mp he) hx.1 hx.2]
  · rw [if_neg hx, if_neg hx]

/-- In the section: the recorded size lacks `a` bytes and has `b` bytes too many. -/
structure InSection (u : Usage) (i f a b : Nat) (s : View) : Prop where
  holder : s.2.holder = some (i, f)
  balance : u.accounts = true → u.recorded s + a = u.counted s + b

theorem InSection.steady {a b : Nat} {s s' : View} (h : InSection u i f a b s)
    (hholder : s'.2.holder = some (i, f)) (hs : u.Steady s s') : InSection u i f a b s' where
  holder := hholder
  balance := by
    intro hacc
    rw [hs.recorded hacc, hs.counted hacc]
    exact h.balance hacc

theorem InSection.kept {a b : Nat} {s s' : View} (h : InSection u i f a b s) (hk : Kept u i f s s') :
    InSection u i f a b s' := h.steady hk.holder hk.calm.toSteady

/-! ## One call -/

section Calls

variable {may : CacheOp → Prop} {α : Type} {Q : α → View → Prop} {s : View}

/-- The client keeps the protocol, and `Q` holds when the program returns. -/
abbrev Keeps (u : Usage) (may : CacheOp → Prop) (i : Nat) (p : Sys α) (Q : α → View → Prop)
    (s : View) : Prop :=
  Holds (u.system may) u.protocol i p Q s

/-- The rule for a call: it is safe at whatever moment it is made, and what it does is a move. -/
theorem keeps_call {c : SysCall} {k : c.Reply → Sys α}
    (h : ∀ s', u.Rely i s s' → u.Inv s' → u.Safe i c s' ∧
      ∀ r w, Kernel.exec i c s'.1 = some (r, w) → u.Tidy i c s'.1 r →
        ∃ g, u.Move i c r s' (w, g) ∧ Keeps u may i (k r) Q (w, g)) :
    Keeps u may i (call c >>= k) Q s := by
  intro s' hrely hinv
  obtain ⟨hsafe, hnext⟩ := h s' hrely hinv
  refine ⟨hsafe, fun r w hexec htidy => ?_⟩
  obtain ⟨g, hmove, hrest⟩ := hnext r w hexec htidy
  exact ⟨g, hmove.inv, hmove.mark, hmove.others, hrest⟩

theorem keeps_pure {a : α} (h : ∀ s', u.Rely i s s' → u.Inv s' → Q a s') :
    Keeps u may i (pure a) Q s := h

/-- One piece after another. -/
theorem Keeps.andThen {β : Type} {p : Sys α} {k : α → Sys β} {P : α → View → Prop}
    {Q : β → View → Prop} (h : Keeps u may i p P s) (hinv : u.Inv s)
    (hk : ∀ a s', u.Inv s' → P a s' → Keeps u may i (k a) Q s') : Keeps u may i (p >>= k) Q s :=
  Holds.bind hinv (Holds.mono h hk)

/-- A call in the section. -/
theorem keeps_section {c : SysCall} {Q : c.Reply → View → Prop} (hin : s.2.holder = some (i, f))
    (hstays : ∀ r s' s'', u.Inv s'' → Kept u i f s' s'' → Q r s' → Q r s'')
    (h : ∀ s', u.Inv s' → Kept u i f s s' → u.Safe i c s' ∧
      ∀ r w, Kernel.exec i c s'.1 = some (r, w) → u.Tidy i c s'.1 r →
        ∃ g, u.Move i c r s' (w, g) ∧ g.holder = some (i, f) ∧ Q r (w, g)) :
    Keeps u may i (call c) Q s := by
  intro s1 hrely hinv
  obtain ⟨hsafe, hnext⟩ := h s1 hinv (.of_rely hin hrely)
  refine ⟨hsafe, fun r w hexec htidy => ?_⟩
  obtain ⟨g, hmove, hholder, hpost⟩ := hnext r w hexec htidy
  refine ⟨g, hmove.inv, hmove.mark, hmove.others, ?_⟩
  apply keeps_pure
  intro s2 hrely2 hinv2
  exact hstays r (w, g) s2 hinv2 (.of_rely hholder hrely2) hpost

/-- A call that changes nothing answers from what is there. -/
theorem look_keeps {c : SysCall} (hin : s.2.holder = some (i, f)) (v : Kernel → c.Reply)
    (hexec : ∀ K, Kernel.exec i c K = some (v K, K))
    (hsafe : ∀ s', Kept u i f s s' → u.Safe i c s') (hmark : ∀ r s', u.Mark i c r s' s') :
    Keeps u may i (call c)
      (fun r s' => ∃ s1, u.Inv s1 ∧ Kept u i f s s1 ∧ r = v s1.1 ∧ Kept u i f s1 s') s := by
  refine keeps_section hin ?_ ?_
  · rintro r s' s'' - hk ⟨s1, hinv, hk1, hr, hk2⟩
    exact ⟨s1, hinv, hk1, hr, hk2.trans hk⟩
  · intro s' hinv hk
    refine ⟨hsafe s' hk, fun r w hx _ => ?_⟩
    rw [hexec] at hx
    obtain ⟨rfl, rfl⟩ := Prod.mk.inj (Option.some.inj hx)
    exact ⟨s'.2, .same hinv (hmark _ s'), hk.holder, s', hinv, hk, rfl, .refl hk.holder⟩

end Calls

/-! ## The recorded size -/

section Recorded

variable {may : CacheOp → Prop} {s : View}

theorem Own.setOpen_of_ne {K : Kernel} {fd g : Nat} {o : OpenFile} {x : Option OpenFile} {gh : Ghost}
    (h : Own u i g o (K, gh)) (hne : g ≠ fd) (gh' : Ghost) : Own u i g o (K.setOpen fd x, gh') :=
  ⟨by rw [Kernel.setOpen_opened_of_ne hne]; exact h.opened, h.opener, h.unshared⟩

/-- Moving in `cache_info`. -/
theorem Kept.offset {o : OpenFile} (hin : s.2.holder = some (i, f)) (ho : s.1.opened f = some o)
    (pos : Nat) : Kept u i f s (s.1.setOpen f (some { o with offset := pos }), s.2) := by
  refine ⟨hin, fun fd x hne hx => hx.setOpen_of_ne hne s.2, ?_, fun _ _ _ _ => rfl⟩
  have hd : Differs s.1 (s.1.setOpen f (some { o with offset := pos })) f
      (some { o with offset := pos }) := ⟨rfl, rfl, rfl, rfl⟩
  refine Calm.of_differs hd ?_
  rintro x ⟨⟩ -
  exact ⟨o, ho, rfl⟩

/-- Going to the front of `cache_info`. -/
theorem seekInfo_keeps {α : Type} {k : Bool → Sys α} {Q : α → View → Prop}
    (hin : s.2.holder = some (i, f))
    (hrest : ∀ s' o, Kept u i f s s' → u.Inv s' → s'.1.opened f = some o → o.offset = 0 →
      u.IsInfo s'.1 o.ino → Keeps u may i (k true) Q s') :
    Keeps u may i (call (.seek f 0) >>= k) Q s := by
  apply keeps_call
  intro s1 hrely hinv
  have hk : Kept u i f s s1 := .of_rely hin hrely
  obtain ⟨o, ho, hinfo, -⟩ := hinv.holds i f hk.holder
  refine ⟨trivial, fun r w hexec _ => ?_⟩
  rw [Kernel.exec_seek ho] at hexec
  obtain ⟨rfl, rfl⟩ := Prod.mk.inj (Option.some.inj hexec)
  have hmove : u.Move i (.seek f 0) true s1 (s1.1.setOpen f (some { o with offset := 0 }), s1.2) :=
    .offset hinv ho (.inr hk.holder) 0 rfl
  refine ⟨s1.2, hmove, ?_⟩
  exact hrest _ _ (hk.trans (.offset hk.holder ho 0)) hmove.inv Kernel.setOpen_opened_self rfl hinfo

/-- `get_cache_info_size` reads the recorded size. -/
theorem getCacheInfoSize_keeps (hin : s.2.holder = some (i, f)) :
    Keeps u may i (getCacheInfoSize f)
      (fun n s' => Kept u i f s s' ∧ (u.accounts = true → n = u.recorded s')) s := by
  apply seekInfo_keeps hin
  intro s1 o hk hinv ho hoffset hinfo
  apply keeps_call
  intro s2 hrely hinv2
  have hk2 : Kept u i f s1 s2 := .of_rely hk.holder hrely
  have ho2 : s2.1.opened f = some o := ((hrely.still f hk.holder).1).trans ho
  refine ⟨trivial, fun r w hexec _ => ?_⟩
  rw [Kernel.exec_read ho2, hoffset, List.drop_zero] at hexec
  obtain ⟨rfl, rfl⟩ := Prod.mk.inj (Option.some.inj hexec)
  refine ⟨s2.2, .offset hinv2 ho2 (.inr hk2.holder) _ rfl, ?_⟩
  apply keeps_pure
  intro s3 hrely3 hinv3
  have hoff := Kept.offset (u := u) hk2.holder ho2 (0 + ((s2.1.data o.ino).take 8).length)
  have hk3 := hoff.trans (.of_rely hoff.holder hrely3)
  refine ⟨(hk.trans hk2).trans hk3, fun hacc => ?_⟩
  rw [sizeIn_take, hk3.calm.recorded hacc, recorded_eq hinv2.wf (hrely.info _ hinfo)]

/-- The items that count once some claims of the client are settled. -/
theorem Kept.counted_settled {s' : View} (h : Kept u i f s s') (hacc : u.accounts = true)
    {p : List Pending} (hsettled : ∀ c ∈ s.2.pending, c.client ≠ i → c ∈ p) :
    u.counted (s'.1, { s'.2 with pending := p }) = u.counted (s.1, { s.2 with pending := p }) := by
  rw [Usage.counted, Usage.counted, ← (h.calm.files.map _).sum_eq]
  congr 1
  apply List.map_congr_left
  intro e he
  rw [weight, weight]
  by_cases hx : IsItem u.home e.1 ∧ ∀ c ∈ p, c.ino ≠ e.2
  · rw [if_pos hx, if_pos hx]
    congr 1
    by_cases hfree : ∀ c ∈ s.2.pending, c.ino ≠ e.2
    · exact h.calm.data hacc e (h.calm.files.mem_iff.mp he) hx.1 hfree
    · -- the file of a claim that is settled is one of the client's own
      rw [not_forall] at hfree
      obtain ⟨c, hc⟩ := hfree
      rw [Classical.not_imp, not_not] at hc
      obtain ⟨hc, hino⟩ := hc
      rw [← hino]
      apply h.claimed hacc c hc
      by_contra hi
      exact hx.2 c (hsettled c hc hi) hino
  · rw [if_neg hx, if_neg hx]

/-- What is true when the recorded size has been brought up to date and the claims `p` are left. -/
structure Updated (u : Usage) (i f : Nat) (p : List Pending) (s s' : View) : Prop where
  section_ : InSection u i f 0 0 s'
  own : ∀ fd o, fd ≠ f → Own u i fd o s → Own u i fd o s'
  info : InfoFd u i f s'
  file : ∀ ino, u.IsInfo s.1 ino → u.IsInfo s'.1 ino
  pending : s'.2.pending = p

theorem Updated.kept {p : List Pending} {s' s'' : View} (h : Updated u i f p s s')
    (hk : Kept u i f s' s'') (hinv : u.Inv s'') : Updated u i f p s s'' where
  section_ := h.section_.kept hk
  own := fun fd o hf ho => hk.own fd o hf (h.own fd o hf ho)
  info := hinv.infoFd hk.holder
  file := fun ino hino => (hk.calm.isInfo ino).mpr (h.file ino hino)
  pending := hk.calm.pending.trans h.pending

/-- `update_cache_info_size` with the size of what counts. -/
theorem updateCacheInfoSize_keeps (hin : s.2.holder = some (i, f)) {size : Nat} (p : List Pending)
    (hsub : p.Sublist s.2.pending) (hsettled : ∀ c ∈ s.2.pending, c.client ≠ i → c ∈ p)
    (hsize : u.accounts = true →
      size = u.counted (s.1, { s.2 with pending := p }) ∧ size < 2 ^ 64) :
    Keeps u may i (updateCacheInfoSize f size) (fun _ s' => Updated u i f p s s') s := by
  apply seekInfo_keeps hin
  intro s1 o hk hinv ho hoffset hinfo
  apply keeps_call
  intro s2 hrely hinv2
  have hk2 : Kept u i f s s2 := hk.trans (.of_rely hk.holder hrely)
  have ho2 : s2.1.opened f = some o := ((hrely.still f hk.holder).1).trans ho
  have hinfo2 : u.IsInfo s2.1 o.ino := hrely.info _ hinfo
  have hpending : s2.2.pending = s.2.pending := hk2.calm.pending
  have hsub2 : p.Sublist s2.2.pending := by rwa [hpending]
  refine ⟨trivial, fun r w hexec htidy => ?_⟩
  rcases Kernel.exec_write ho2 hexec with ⟨rfl, -, rfl⟩ | ⟨rfl, rfl⟩
  · rw [hoffset]
    obtain ⟨hinv3, hothers⟩ := Move.record (overwrite (s2.1.data o.ino) 0 (encodeSize size))
      hinv2 hk2.holder hinfo2 p hsub2 (by rwa [hpending])
    have hmove := Move.offset (c := .write f (encodeSize size)) (r := some (encodeSize size).length)
      hinv3 ho2 (.inr hk2.holder) (0 + (encodeSize size).length) rfl
    refine ⟨{ s2.2 with pending := p }, .after hothers hmove rfl, ?_⟩
    apply keeps_pure
    intro s4 hrely4 hinv4
    have hupdated : Updated u i f p s
        ((s2.1.setData o.ino (overwrite (s2.1.data o.ino) 0 (encodeSize size))).setOpen f
          (some { o with offset := 0 + (encodeSize size).length }), { s2.2 with pending := p }) := by
      refine ⟨⟨hk2.holder, fun hacc => ?_⟩, ?_, hmove.inv.infoFd hk2.holder, ?_, rfl⟩
      · obtain ⟨hvalue, hlt⟩ := hsize hacc
        have hcounted : u.counted (s2.1.setData o.ino (overwrite (s2.1.data o.ino) 0 (encodeSize size)),
            { s2.2 with pending := p }) = u.counted (s2.1, { s2.2 with pending := p }) := by
          refine counted_setData_of_not (s := (s2.1, { s2.2 with pending := p })) ?_
          intro e he hino hitem
          exact hinv2.ne_info he hitem.1 (by rwa [hino])
        have hrecorded := recorded_eq hinv3.wf hinfo2
        rw [Kernel.setData_data_self, sizeIn_overwrite _ hlt] at hrecorded
        show u.recorded (s2.1.setData o.ino _, { s2.2 with pending := p }) + 0 =
          u.counted (s2.1.setData o.ino _, { s2.2 with pending := p }) + 0
        rw [hrecorded, hcounted, hk2.counted_settled hacc hsettled, hvalue]
      · intro fd x hne hx
        have hx2 := hk2.own fd x hne hx
        refine ⟨?_, hx2.opener, hx2.unshared⟩
        rw [Kernel.setOpen_opened_of_ne hne]
        exact hx2.opened
      · exact fun ino hino => (hk2.calm.isInfo ino).mpr hino
    exact hupdated.kept (.of_rely hk2.holder hrely4) hinv4
  · -- a write fails only where the sizes are not accounted for
    have hacc : u.accounts = false := by
      rw [← Bool.not_eq_true]
      intro hacc
      cases (htidy hacc).1
    refine ⟨s2.2, .same hinv2 rfl, ?_⟩
    apply keeps_pure
    intro s4 hrely4 hinv4
    have hupdated : Updated u i f p s s2 := by
      refine ⟨⟨hk2.holder, ?_⟩, hk2.own, hinv2.infoFd hk2.holder, ?_, ?_⟩
      · rw [hacc]
        exact nofun
      · exact fun ino hino => (hk2.calm.isInfo ino).mpr hino
      · rw [hinv2.unused (.inl hacc)] at hsub2 ⊢
        exact (List.sublist_nil.mp hsub2).symm
    exact hupdated.kept (.of_rely hk2.holder hrely4) hinv4

end Recorded

end Usage

end Skunk.BesUtils
