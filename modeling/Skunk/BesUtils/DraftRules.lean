import Skunk.BesUtils.Drafts

/-!
# The operations follow the rules

What each operation of a cache leaves a process with, whatever the replies are and whatever the other
processes do meanwhile. An operation that only looks or removes leaves everything as it was; `put` and
`put_data` leave one more file that is closed and whole, `put` for a `PutItem` one that is locked.
-/

namespace Skunk.BesUtils

open Effect Posix

variable {dir : Text} {h : Hand} {f fd : Nat} {α : Type} {Q : α → Hand → Prop}

/-- The program keeps to the rules, and `Q` holds when it returns. -/
abbrev Goes (dir : Text) (Q : α → Hand → Prop) (p : Sys α) (h : Hand) : Prop :=
  (rules dir).Follows Q p h

theorem goes_call {c : SysCall} {k : c.Reply → Sys α} :
    Goes dir Q (call c >>= k) h ↔
      h.Ok dir c ∧ ∀ K r, h.Expects c r → Goes dir Q (k r) (h.next dir K c r) := Iff.rfl

/-- A call that changes nothing that the process has in hand. -/
theorem goes_look {c : SysCall} {k : c.Reply → Sys α} (hok : h.Ok dir c)
    (hsame : ∀ K r, h.Expects c r → h.next dir K c r = h)
    (hk : ∀ r, h.Expects c r → Goes dir Q (k r) h) : Goes dir Q (call c >>= k) h := by
  refine goes_call.mpr ⟨hok, fun K r hr => ?_⟩
  rw [hsame K r hr]
  exact hk r hr

/-! ## The recorded size -/

namespace Hand

theorem next_seek_info (hnodup : h.fds.Nodup) (hf : f ∈ h.infos) (K : Kernel) (pos : Nat) (r : Bool) :
    h.next dir K (.seek f pos) r = h := by
  cases r with
  | false => rfl
  | true => exact edit_eq_self (ne_of_info hnodup hf)

theorem next_write_info (hnodup : h.fds.Nodup) (hf : f ∈ h.infos) (K : Kernel) (bytes : List UInt8)
    (r : Option Nat) : h.next dir K (.write f bytes) r = h := by
  cases r with
  | none => exact edit_eq_self (ne_of_info hnodup hf)
  | some n => exact edit_eq_self (ne_of_info hnodup hf)

end Hand

theorem getCacheInfoSize_goes (hnodup : h.fds.Nodup) (hf : f ∈ h.infos) :
    Goes dir (fun _ h' => h' = h) (getCacheInfoSize f) h := by
  refine goes_look (.inl hf) (fun K r _ => Hand.next_seek_info hnodup hf K 0 r) fun sought _ => ?_
  split
  · refine goes_look hf (fun _ _ _ => rfl) fun bytes _ => ?_
    split
    · exact rfl
    · exact rfl
  · exact rfl

theorem updateCacheInfoSize_goes (hnodup : h.fds.Nodup) (hf : f ∈ h.infos) (size : Nat) :
    Goes dir (fun _ h' => h' = h) (updateCacheInfoSize f size) h := by
  refine goes_look (.inl hf) (fun K r _ => Hand.next_seek_info hnodup hf K 0 r) fun sought _ => ?_
  split
  · refine goes_look (.inl hf) (fun K r _ => Hand.next_write_info hnodup hf K _ r) fun written _ => ?_
    exact rfl
  · exact rfl

theorem getFileSize_goes (fd : Nat) : Goes dir (fun _ h' => h' = h) (getFileSize fd) h :=
  goes_look trivial (fun _ _ _ => rfl) fun _ _ => rfl

theorem addFileSize_goes (hnodup : h.fds.Nodup) (hf : f ∈ h.infos) (fd : Nat) :
    Goes dir (fun _ h' => h' = h) (FileCache.addFileSize f fd) h := by
  refine (getCacheInfoSize_goes hnodup hf).bind ?_
  rintro recorded _ rfl
  refine (getFileSize_goes fd).bind ?_
  rintro size _ rfl
  exact updateCacheInfoSize_goes hnodup hf _

/-! ## The lock -/

/-- What is done with the cache locked. -/
theorem withCacheLock_goes {info : Option Nat} {fail : α} {body : Nat → Sys α} (hout : h.Outside)
    (hinfo : ∀ f, info = some f → f ∈ h.infos) (hfail : Q fail h)
    (hbody : ∀ f, info = some f → ({ h with inside := some f } : Hand).Inside f →
      Goes dir (fun a h' => h'.Inside f ∧ Q a { h' with inside := none }) (body f)
        { h with inside := some f }) :
    Goes dir Q (withCacheLock info fail body) h := by
  cases info with
  | none => exact hfail
  | some f =>
      have hf := hinfo f rfl
      refine goes_call.mpr ⟨.inl ⟨hf, rfl, rfl, hout.inside⟩, fun K r hr => ?_⟩
      obtain rfl : r = true := hr
      have hnext : h.next dir K (.flock f .exclusive false) true = { h with inside := some f } :=
        if_pos hf
      rw [hnext]
      refine (hbody f rfl (hout.enter hf)).bind ?_
      rintro a h' ⟨hin, hq⟩
      refine goes_call.mpr ⟨⟨hin.inside, hin.settled⟩, fun _ _ _ => ?_⟩
      exact hq

/-- An operation that leaves everything as it was. -/
theorem locked_goes {info : Option Nat} {fail : α} {body : Nat → Sys α} (hout : h.Outside)
    (hinfo : ∀ f, info = some f → f ∈ h.infos)
    (hbody : ∀ f h', info = some f → h'.Inside f → Goes dir (fun _ h'' => h'' = h') (body f) h') :
    Goes dir (fun _ h' => h' = h) (withCacheLock info fail body) h := by
  refine withCacheLock_goes hout hinfo rfl fun f hf hin => ?_
  refine (hbody f _ hf hin).mono ?_
  rintro a _ rfl
  refine ⟨hin, ?_⟩
  have hinside := hout.inside
  cases h
  dsimp only at hinside
  rw [hinside]

/-! ## Files that are created -/

/-- What a process has created for what it is doing, as far as it has come. -/
structure Draft.For (p : Draft) (dir : Text) (h : Hand) (key : Text) : Prop where
  new : p.fd ∉ h.fds
  path : p.path = pathConcat dir key
  op : p.op = h.op
  turn : p.turn = h.turn

/-- `create_key` begins a draft for the key, or leaves everything as it was. -/
theorem createKey_goes {fc : FileCache} {key : Text} (hin : h.Inside f) (hdir : fc.cacheDir = dir)
    (hkey : IsKey key) (hop : h.op.bind CacheOp.puts = some key) :
    Goes dir (fun r h' => match r with
      | none => h' = h
      | some fd => ∃ p : Draft, h' = h.drafting p ∧ p.For dir h key ∧ p.fd = fd ∧
          p.bytes = [] ∧ p.offset = 0 ∧ p.stage = .created) (fc.createKey key) h := by
  have hpath : fc.keyFileName key = pathConcat dir key := by rw [FileCache.keyFileName, hdir]
  refine goes_call.mpr ⟨.inr ⟨hin.busy, key, hkey, hpath, hop⟩, fun K r hr => ?_⟩
  cases r with
  | none => exact rfl
  | some fd =>
      have hnext : h.next dir K (.create (fc.keyFileName key)) (some fd) =
          h.drafting ⟨fd, K.nextIno, fc.keyFileName key, h.op, h.turn, [], 0, .created, false⟩ := by
        refine if_neg ?_
        rw [hpath]
        exact isKey_ne hkey
      rw [hnext]
      exact ⟨_, rfl, ⟨hr, hpath, rfl, rfl⟩, rfl, rfl, rfl, rfl⟩

/-- `lock_the_item` on a file that has just been created. -/
theorem lockNew_goes {p : Draft} (hp : p.fd ∉ h.fds) (hstage : p.stage = .created) :
    Goes dir (fun r h' => r = true ∧ h' = h.drafting { p with stage := .locked })
      (lockTheItem p.fd .exclusive false) (h.drafting p) := by
  refine goes_call.mpr ⟨.inr (.inl ⟨p, List.mem_cons_self, rfl, hstage, rfl, rfl⟩), fun K r hr => ?_⟩
  obtain rfl : r = true := hr
  have hinfo : p.fd ∉ (h.drafting p).infos := by
    intro hmem
    apply hp
    simp only [Hand.mem_fds]
    exact .inl hmem
  have hnext : (h.drafting p).next dir K (.flock p.fd .exclusive false) true =
      h.drafting { p with stage := .locked } :=
    (if_neg hinfo).trans (Hand.edit_drafting rfl hp)
  rw [hnext]
  exact goes_look trivial (fun _ _ _ => rfl) fun _ _ => ⟨rfl, rfl⟩

/-- `write` at the end of such a file. -/
theorem writeNew_goes {p : Draft} {k : Option Nat → Sys α} (hp : p.fd ∉ h.fds)
    (hstage : p.stage = .locked) (hend : p.offset = p.bytes.length) (bytes : List UInt8)
    (hall : Goes dir Q (k (some bytes.length)) (h.drafting { p with
      bytes := p.bytes ++ bytes
      offset := (p.bytes ++ bytes).length }))
    (hnone : Goes dir Q (k none) (h.drafting { p with failed := true })) :
    Goes dir Q (call (.write p.fd bytes) >>= k) (h.drafting p) := by
  refine goes_call.mpr ⟨.inr ⟨p, List.mem_cons_self, rfl, hstage⟩, fun K r hr => ?_⟩
  cases r with
  | none =>
      have hnext : (h.drafting p).next dir K (.write p.fd bytes) none =
          h.drafting { p with failed := true } := Hand.edit_drafting rfl hp
      rw [hnext]
      exact hnone
  | some n =>
      obtain rfl : n = bytes.length := hr
      have hnext : (h.drafting p).next dir K (.write p.fd bytes) (some bytes.length) =
          h.drafting { p with
            bytes := p.bytes ++ bytes
            offset := (p.bytes ++ bytes).length } := by
        refine (Hand.edit_drafting rfl hp).trans ?_
        rw [hend, overwrite_end, List.length_append]
      rw [hnext]
      exact hall

/-- The loop that copies a file. -/
theorem copyPieces_goes {p : Draft} (hp : p.fd ∉ h.fds) (hstage : p.stage = .locked)
    (hend : p.offset = p.bytes.length) (parts : List (List UInt8)) :
    Goes dir (fun r h' => ∃ q : Draft, h' = h.drafting q ∧ q.fd = p.fd ∧ q.path = p.path ∧ q.op = p.op ∧
        q.turn = p.turn ∧ q.stage = .locked ∧
        if r = true then q.bytes = p.bytes ++ parts.flatten else q.failed = true)
      (FileCache.copyPieces p.fd parts) (h.drafting p) := by
  induction parts generalizing p with
  | nil => exact ⟨p, rfl, rfl, rfl, rfl, rfl, hstage, by simp⟩
  | cons buf rest ih =>
      refine writeNew_goes hp hstage hend buf ?_ ?_
      · rw [if_pos rfl]
        refine (ih (p := { p with
          bytes := p.bytes ++ buf
          offset := (p.bytes ++ buf).length }) hp hstage rfl).mono ?_
        rintro r h' ⟨q, hq, hfd, hpath, hop, hturn, hq', hbytes⟩
        refine ⟨q, hq, hfd, hpath, hop, hturn, hq', ?_⟩
        simpa only [List.flatten_cons, List.append_assoc] using hbytes
      · rw [if_neg nofun]
        exact ⟨_, rfl, rfl, rfl, rfl, rfl, hstage, by simp⟩

theorem flatten_reads {count : Nat} (hcount : 0 < count) {fuel : Nat} {bytes : List UInt8}
    (hfuel : bytes.length ≤ fuel) : (FileCache.reads count fuel bytes).flatten = bytes := by
  induction fuel generalizing bytes with
  | zero =>
      rw [Nat.le_zero, List.length_eq_zero_iff] at hfuel
      rw [hfuel]
      rfl
  | succ fuel ih =>
      cases bytes with
      | nil => rfl
      | cons b bs =>
          have hdrop : ((b :: bs).drop count).length ≤ fuel := by
            rw [List.length_drop]
            simp only [List.length_cons] at hfuel ⊢
            omega
          rw [FileCache.reads, List.flatten_cons, ih hdrop, List.take_append_drop]
          exact nofun

/-- What is read in pieces of a file is all that is read of it. -/
theorem flatten_reads_given (s : Source) :
    (FileCache.reads (min megabyte s.size) s.given.length s.given).flatten = s.given := by
  by_cases hsize : s.size = 0
  · rw [Source.given, if_pos hsize]
    rfl
  · refine flatten_reads ?_ (Nat.le_refl _)
    exact Nat.lt_min.mpr ⟨by decide, Nat.pos_of_ne_zero hsize⟩

/-- What is done with a new file until it is closed. -/
theorem withNew_goes {fd : Nat} {body : Sys Bool} {h₀ : Hand} {P : Bool → Draft → Hand → Prop}
    (hbody : Goes dir (fun r h' => ∃ (p : Draft) (h₁ : Hand), h' = h₁.drafting p ∧ p.fd = fd ∧ fd ∉ h₁.fds ∧
      p.stage = .locked ∧ p.Whole h₁.sources ∧ P r p h₁) body h₀) :
    Goes dir (fun r h' => ∃ (p : Draft) (h₁ : Hand), h' = h₁.drafting { p with stage := .closed } ∧
      p.fd = fd ∧ fd ∉ h₁.fds ∧ P r p h₁) (withItem fd body) h₀ := by
  refine hbody.bind ?_
  rintro r _ ⟨p, h₁, rfl, rfl, hnew, hstage, hwhole, hP⟩
  refine goes_call.mpr ⟨.inr ⟨p, List.mem_cons_self, rfl, hstage, hwhole⟩, fun K c _ => ?_⟩
  refine ⟨p, h₁, ?_, rfl, hnew, hP⟩
  have hreadings : (h₁.readings.filter fun r => r.fd ≠ p.fd) = h₁.readings := by
    rw [List.filter_eq_self]
    intro r hr
    rw [decide_eq_true_eq]
    intro heq
    apply hnew
    simp only [Hand.mem_fds]
    exact .inr (.inr ⟨r, hr, heq⟩)
  have hedit := Hand.edit_drafting (g := fun p => { p with stage := .closed }) rfl hnew
  show ({ (h₁.drafting p).edit p.fd fun p => { p with stage := .closed } with
    readings := h₁.readings.filter fun r => r.fd ≠ p.fd } : Hand) = _
  rw [hedit, hreadings]
  rfl

/-! ## Putting -/

/-- What `put` and `put_data` leave: what there was, or one more file that is closed. -/
inductive PutLeaves (dir : Text) (h : Hand) (key : Text) : Bool → Hand → Prop
  | nothing : PutLeaves dir h key false h
  | file {r : Bool} {p : Draft} {sources : List Asked} (hp : p.For dir h key)
      (hstage : p.stage = .closed) (hexact : r = true → p.Exact sources) (hsub : h.sources ⊆ sources) :
      PutLeaves dir h key r (({ h with sources := sources } : Hand).drafting p)

/-- The lock of the cache is part of no operation's result. -/
theorem PutLeaves.unlocked {key : Text} {r : Bool} {h' : Hand} (hinside : h.inside = none)
    (hput : PutLeaves dir { h with inside := some f } key r h') :
    PutLeaves dir h key r { h' with inside := none } := by
  cases hput with
  | nothing =>
      have hsame : ({ h with inside := none } : Hand) = h := by
        cases h
        dsimp only at hinside
        rw [hinside]
      show PutLeaves dir h key false { h with inside := none }
      rw [hsame]
      exact .nothing
  | @file r p sources hp hstage hexact hsub =>
      have hsame : ({ (({ h with inside := some f, sources := sources } : Hand).drafting p) with
          inside := none } : Hand) = ({ h with sources := sources } : Hand).drafting p := by
        cases h
        dsimp only at hinside
        subst hinside
        rfl
      show PutLeaves dir h key r { (({ h with inside := some f, sources := sources } : Hand).drafting p) with
          inside := none }
      rw [hsame]
      exact .file ⟨hp.new, hp.path, hp.op, hp.turn⟩ hstage hexact hsub

/-- What is done in the section with a file that has just been created and locked. -/
theorem putWith_goes {fc : FileCache} {key : Text} {body : Nat → Nat → Sys Bool}
    (hout : h.Outside) (hinfo : ∀ f, fc.cacheInfoFd = some f → f ∈ h.infos ∧ fc.cacheDir = dir)
    (hkey : IsKey key) (hop : h.op.bind CacheOp.puts = some key)
    (hbody : ∀ f (h₁ : Hand) (p : Draft), h₁.Inside f → h₁.op = h.op → p.For dir h₁ key → p.bytes = [] →
      p.offset = 0 → p.stage = .locked →
      Goes dir (fun r h' => ∃ (q : Draft) (sources : _),
        h' = ({ h₁ with sources := sources } : Hand).drafting q ∧ q.fd = p.fd ∧ q.path = p.path ∧
          q.op = p.op ∧ q.turn = p.turn ∧ q.stage = .locked ∧ h₁.sources ⊆ sources ∧ q.Whole sources ∧
          (r = true → q.Exact sources)) (body f p.fd) (h₁.drafting p)) :
    Goes dir (PutLeaves dir h key) (withCacheLock fc.cacheInfoFd false fun info => do
      let created ← fc.createKey key
      match created with
      | none => pure false
      | some fd => withItem fd do
        let locked ← lockTheItem fd .exclusive false
        if locked then body info fd
        else pure false) h := by
  refine withCacheLock_goes hout (fun f hf => (hinfo f hf).1) .nothing fun f hf hin => ?_
  refine (createKey_goes hin (hinfo f hf).2 hkey hop).bind ?_
  intro created h' hcreated
  cases created with
  | none =>
      obtain rfl : h' = { h with inside := some f } := hcreated
      exact ⟨hin, PutLeaves.nothing.unlocked hout.inside⟩
  | some fd =>
      obtain ⟨p, rfl, hp, rfl, hempty, hzero, hstage⟩ := hcreated
      have hnew := hp.new
      refine (withNew_goes (P := fun r q h₁ => ∃ sources,
        h₁ = { h with inside := some f, sources := sources } ∧ q.path = p.path ∧ q.op = p.op ∧
          q.turn = p.turn ∧ h.sources ⊆ sources ∧ (r = true → q.Exact sources)) ?_).mono ?_
      · refine (lockNew_goes hnew hstage).bind ?_
        rintro locked _ ⟨rfl, rfl⟩
        rw [if_pos rfl]
        refine (hbody f _ { p with stage := .locked } hin rfl ⟨hnew, hp.path, hp.op, hp.turn⟩ hempty hzero
          rfl).mono ?_
        rintro r _ ⟨q, sources, rfl, hfd, hpath, hop', hturn, hq, hsub, hwhole, hexact⟩
        exact ⟨q, _, rfl, hfd, hnew, hq, hwhole, sources, rfl, hpath, hop', hturn, hsub, hexact⟩
      · rintro r _ ⟨q, _, rfl, hfd, -, sources, rfl, hpath, hop', hturn, hsub, hexact⟩
        have hfor : Draft.For { q with stage := .closed } dir { h with inside := some f } key := by
          refine ⟨?_, hpath.trans hp.path, hop'.trans hp.op, hturn.trans hp.turn⟩
          show q.fd ∉ _
          rw [hfd]
          exact hnew
        have hleaves : PutLeaves dir { h with inside := some f } key r
            (({ h with inside := some f, sources := sources } : Hand).drafting { q with stage := .closed }) :=
          .file hfor rfl hexact hsub
        refine ⟨?_, hleaves.unlocked hout.inside⟩
        have hin' : ({ h with inside := some f, sources := sources } : Hand).Inside f :=
          ⟨hin.inside, hin.info, hin.settled, hin.nodup⟩
        exact hin'.draft nofun hfor.new

section Operations

variable {fc : FileCache} {key : Text}

/-- `put_data` makes one file, and says so only when it is written and closed. -/
theorem putData_goes {data : List UInt8} (hout : h.Outside)
    (hinfo : ∀ f, fc.cacheInfoFd = some f → f ∈ h.infos ∧ fc.cacheDir = dir) (hkey : IsKey key)
    (hop : h.op = some (.putData key data)) :
    Goes dir (PutLeaves dir h key) (fc.putData key data) h := by
  have hputs : h.op.bind CacheOp.puts = some key := by rw [hop]; rfl
  unfold FileCache.putData
  refine putWith_goes hout hinfo hkey hputs ?_
  intro f h₁ p hin hop₁ hp hempty hzero hstage
  have hpop : p.op = some (.putData key data) := by rw [hp.op, hop₁, hop]
  have hend : p.offset = p.bytes.length := by rw [hzero, hempty]; rfl
  refine writeNew_goes hp.new hstage hend data ?_ ?_
  · rw [if_pos rfl]
    have hexact : Draft.Exact { p with
        bytes := p.bytes ++ data
        offset := (p.bytes ++ data).length } h₁.sources := by
      simp only [Draft.Exact, hpop, hempty, List.nil_append]
    refine (addFileSize_goes ?_ ?_ p.fd).mono ?_
    · exact (hin.draft (p := { p with bytes := _, offset := _ }) (by rw [hstage]; exact nofun) hp.new).nodup
    · exact hin.info
    · rintro r _ rfl
      exact ⟨_, h₁.sources, rfl, rfl, rfl, rfl, rfl, hstage, fun _ hs => hs, .inl hexact, fun _ => hexact⟩
  · rw [if_neg nofun]
    exact ⟨_, h₁.sources, rfl, rfl, rfl, rfl, rfl, hstage, fun _ hs => hs, .inr (.inl rfl), nofun⟩

/-- `put` makes one file, and says so only when it is written and closed. -/
theorem put_goes {fileName : Text} (hout : h.Outside)
    (hinfo : ∀ f, fc.cacheInfoFd = some f → f ∈ h.infos ∧ fc.cacheDir = dir) (hkey : IsKey key)
    (hop : h.op = some (.put key fileName)) :
    Goes dir (PutLeaves dir h key) (fc.put key fileName) h := by
  have hputs : h.op.bind CacheOp.puts = some key := by rw [hop]; rfl
  unfold FileCache.put
  refine putWith_goes hout hinfo hkey hputs ?_
  intro f h₁ p hin hop₁ hp hempty hzero hstage
  have hpop : p.op = some (.put key fileName) := by rw [hp.op, hop₁, hop]
  have hend : p.offset = p.bytes.length := by rw [hzero, hempty]; rfl
  refine goes_call.mpr ⟨trivial, fun K source _ => ?_⟩
  have hin' := hin.read fileName source
  show Goes dir _ _ (({ h₁ with sources := ⟨h₁.turn, fileName, source⟩ :: h₁.sources } : Hand).drafting p)
  cases source with
  | none =>
      refine ⟨p, _, rfl, rfl, rfl, rfl, rfl, hstage, List.subset_cons_self _ _, .inr (.inr ?_), nofun⟩
      exact ⟨key, fileName, hpop, hp.turn ▸ List.mem_cons_self⟩
  | some s =>
      refine (copyPieces_goes (h := { h₁ with sources := ⟨h₁.turn, fileName, some s⟩ :: h₁.sources }) hp.new hstage
        hend _).bind ?_
      rintro copied _ ⟨q, rfl, hfd, hpath, hop', hturn, hq, hbytes⟩
      have hnew : q.fd ∉ ({ h₁ with sources := ⟨h₁.turn, fileName, some s⟩ :: h₁.sources } : Hand).fds := by
        rw [hfd]
        exact hp.new
      cases copied with
      | true =>
          rw [if_pos rfl] at hbytes ⊢
          rw [hempty, List.nil_append, flatten_reads_given] at hbytes
          have hexact : q.Exact (⟨h₁.turn, fileName, some s⟩ :: h₁.sources) := by
            simp only [Draft.Exact, hop', hpop, hturn, hp.turn]
            exact ⟨s, List.mem_cons_self, hbytes⟩
          refine (addFileSize_goes (hin'.draft (by rw [hq]; exact nofun) hnew).nodup hin.info p.fd).mono ?_
          rintro r _ rfl
          exact ⟨q, _, rfl, hfd, hpath, hop', hturn, hq, List.subset_cons_self _ _, .inl hexact, fun _ => hexact⟩
      | false =>
          rw [if_neg nofun] at hbytes ⊢
          exact ⟨q, _, rfl, hfd, hpath, hop', hturn, hq, List.subset_cons_self _ _, .inr (.inl hbytes), nofun⟩

/-- `put` for a `PutItem` leaves a file that is locked. -/
theorem putItem_goes (hout : h.Outside)
    (hinfo : ∀ f, fc.cacheInfoFd = some f → f ∈ h.infos ∧ fc.cacheDir = dir) (hkey : IsKey key)
    (hop : h.op = some (.putItem key)) :
    Goes dir (fun r h' => r.2 = none ∧ h' = h ∨ ∃ p : Draft, h' = h.drafting p ∧ p.For dir h key ∧
      r.2 = some p.fd ∧ p.stage = .locked) (fc.putItem key) h := by
  have hputs : h.op.bind CacheOp.puts = some key := by rw [hop]; rfl
  have hsame : ({ h with inside := none } : Hand) = h := by
    have hinside := hout.inside
    cases h
    dsimp only at hinside
    rw [hinside]
  refine withCacheLock_goes hout (fun f hf => (hinfo f hf).1) (.inl ⟨rfl, rfl⟩) fun f hf hin => ?_
  refine (createKey_goes hin (hinfo f hf).2 hkey hputs).bind ?_
  intro created h' hcreated
  cases created with
  | none =>
      obtain rfl : h' = { h with inside := some f } := hcreated
      exact ⟨hin, .inl ⟨rfl, hsame⟩⟩
  | some fd =>
      obtain ⟨p, rfl, hp, rfl, -, -, hstage⟩ := hcreated
      refine (lockNew_goes hp.new hstage).bind ?_
      rintro locked _ ⟨rfl, rfl⟩
      refine ⟨hin.draft nofun hp.new, .inr ⟨{ p with stage := .locked }, ?_, ?_, rfl, rfl⟩⟩
      · show ({ h with inside := none } : Hand).drafting { p with stage := .locked } = _
        rw [hsame]
      · exact ⟨hp.new, hp.path, hp.op, hp.turn⟩

/-- `~PutItem` closes the file. -/
theorem destroyPutItem_goes {p : Draft} (hout : h.Outside)
    (hinfo : ∀ f, fc.cacheInfoFd = some f → f ∈ h.infos) (hp : p ∈ h.drafts) (hstage : p.stage = .locked)
    (hkey : ∃ key, p.op = some (.putItem key)) :
    Goes dir (fun _ h' => ∃ K r, h' = h.next dir K (.close p.fd) r) (fc.destroyPutItem (some p.fd)) h := by
  unfold FileCache.destroyPutItem
  refine (locked_goes hout hinfo fun f h' _ hin => ?_).bind ?_
  · refine (getCacheInfoSize_goes hin.nodup hin.info).bind ?_
    rintro recorded _ rfl
    refine (getFileSize_goes p.fd).bind ?_
    rintro size _ rfl
    refine (updateCacheInfoSize_goes hin.nodup hin.info _).bind ?_
    rintro updated _ rfl
    exact rfl
  · intro _ h' hsame
    rw [hsame]
    obtain ⟨key, hop⟩ := hkey
    have hwhole : p.Whole h.sources := by
      left
      simp only [Draft.Exact, hop]
    refine goes_call.mpr ⟨.inr ⟨p, hp, rfl, hstage, hwhole⟩, fun K r _ => ?_⟩
    exact ⟨K, r, rfl⟩

theorem destroyEmptyPutItem_goes (hout : h.Outside)
    (hinfo : ∀ f, fc.cacheInfoFd = some f → f ∈ h.infos) :
    Goes dir (fun _ h' => h' = h) (fc.destroyPutItem none) h := by
  unfold FileCache.destroyPutItem
  refine (locked_goes hout hinfo fun f h' _ hin => ?_).bind ?_
  · refine (getCacheInfoSize_goes hin.nodup hin.info).bind ?_
    rintro recorded _ rfl
    refine (updateCacheInfoSize_goes hin.nodup hin.info _).bind ?_
    rintro updated _ rfl
    exact rfl
  · rintro - _ rfl
    exact rfl

end Operations

end Skunk.BesUtils
