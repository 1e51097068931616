import UbsAtomic.Data.Bits
import UbsAtomic.Lock.Rebuild

/-! The order of the query results does not matter to `rebuild`, and what it accepts is well formed.

        results    e₁  e₂  …  eₙ    ── loop ──▶   Scan    ── checks ──▶   fields
                   any order                       │
                                                   └─ what it has collected depends on which
                                                      entries there are, not on their order

    The loop refuses an X holder behind a reader at once, and one before a reader only when it is
    over. `Compatible` is what both come to; it speaks of the entries as a set. -/

namespace UbsAtomic

open Conc Conc.Prog

namespace Lifecycle

open Shm

/-! ### One entry -/

/-- What the body of the loop asks of the next entry. -/
structure Admits (st : Scan) (e : QueryResult) : Prop where
  small : e.nodeId.val < ubMaxNodes
  new : e.nodeId ∉ st.seenNodes
  valid : isValidQueryResultEntry e = true
  token : e.reserveMode ≠ .i → (e.heldMode = .i ∨ e.heldMode = .s) ∧ st.reserveEntry = none
  x : e.heldMode = .x → st.xHolder = none ∧ st.sxHolder = none ∧ st.sharedCount = 0
  sx : e.heldMode = .sx → st.sxHolder = none ∧ st.xHolder = none

/-- What it then collects. -/
def Scan.add (st : Scan) (e : QueryResult) : Scan where
  xHolder := if e.heldMode = .x then some e else st.xHolder
  sxHolder := if e.heldMode = .sx then some e else st.sxHolder
  reserveEntry := if e.reserveMode ≠ .i then some e else st.reserveEntry
  sharedBitmap :=
    if e.hasSharedRef then st.sharedBitmap ||| (1#32 <<< e.nodeId.val) else st.sharedBitmap
  sharedCount := if e.hasSharedRef then st.sharedCount + 1 else st.sharedCount
  seenNodes := e.nodeId :: st.seenNodes

section Entry

variable {st st' : Scan} {e : QueryResult}

theorem shared_of_valid (h : isValidQueryResultEntry e = true) :
    (e.heldMode = .s → e.hasSharedRef = true) ∧ (e.heldMode = .x → e.hasSharedRef = false) ∧
      (e.heldMode = .i → e.hasSharedRef = false) := by
  unfold isValidQueryResultEntry at h
  cases hm : e.heldMode <;> simp_all

theorem scanReserve_iff {r : Option QueryResult} (hvalid : isValidQueryResultEntry e = true) :
    scanReserve st e = some r ↔
      (e.reserveMode ≠ .i → (e.heldMode = .i ∨ e.heldMode = .s) ∧ st.reserveEntry = none) ∧
        r = if e.reserveMode ≠ .i then some e else st.reserveEntry := by
  have hshared := (shared_of_valid hvalid).1
  unfold scanReserve
  by_cases hmode : e.reserveMode = .i
  · rw [if_neg (not_not_intro hmode), if_neg (not_not_intro hmode)]
    constructor
    · rintro ⟨⟩
      exact ⟨fun h => absurd hmode h, rfl⟩
    · rintro ⟨-, rfl⟩
      rfl
  · rw [if_pos hmode, if_pos hmode]
    by_cases hbad : (e.heldMode ≠ .i ∧ ¬ (e.heldMode = .s ∧ e.hasSharedRef = true)) ∨
        st.reserveEntry.isSome = true
    · rw [if_pos hbad]
      refine iff_of_false (by simp) ?_
      rintro ⟨h, -⟩
      obtain ⟨hheld, hnone⟩ := h hmode
      rcases hbad with ⟨hi, hs⟩ | hsome
      · exact hs ⟨hheld.resolve_left hi, hshared (hheld.resolve_left hi)⟩
      · simp [hnone] at hsome
    · rw [if_neg hbad]
      push Not at hbad
      have hnone : st.reserveEntry = none := by simpa using hbad.2
      constructor
      · rintro ⟨⟩
        refine ⟨fun _ => ⟨?_, hnone⟩, rfl⟩
        by_cases hi : e.heldMode = .i
        · exact .inl hi
        · exact .inr (hbad.1 hi).1
      · rintro ⟨-, rfl⟩
        rfl

/-- The body of the loop, in one line. -/
theorem scanEntry_iff : scanEntry st e = some st' ↔ Admits st e ∧ st' = st.add e := by
  unfold scanEntry
  by_cases hguard : e.nodeId.val ≥ ubMaxNodes ∨ e.nodeId ∈ st.seenNodes ∨
      isValidRebuildMode e.heldMode = false ∨ isValidRebuildMode e.reserveMode = false ∨
      isValidQueryResultEntry e = false
  · rw [if_pos hguard]
    refine iff_of_false (by simp) ?_
    rintro ⟨h, -⟩
    rcases hguard with hg | hg | hg | hg | hg
    · exact absurd h.small (by omega)
    · exact h.new hg
    · simp [isValidRebuildMode_eq] at hg
    · simp [isValidRebuildMode_eq] at hg
    · simp [h.valid] at hg
  · rw [if_neg hguard]
    push Not at hguard
    obtain ⟨hsmall, hnew, -, -, hvalid⟩ := hguard
    have hvalid : isValidQueryResultEntry e = true := by simpa using hvalid
    obtain ⟨hs, hx, -⟩ := shared_of_valid hvalid
    rw [Option.bind_eq_some_iff]
    simp only [scanReserve_iff hvalid]
    constructor
    · rintro ⟨_, ⟨htoken, rfl⟩, hrest⟩
      cases hheld : e.heldMode with
      | i =>
        simp only [hheld] at hrest
        cases hrest
        exact ⟨⟨hsmall, hnew, hvalid, htoken, by simp [hheld], by simp [hheld]⟩,
          by simp [Scan.add, hheld]⟩
      | s =>
        simp only [hheld] at hrest
        cases hrest
        exact ⟨⟨hsmall, hnew, hvalid, htoken, by simp [hheld], by simp [hheld]⟩,
          by simp [Scan.add, hheld]⟩
      | x =>
        simp only [hheld, hx hheld, Option.ite_none_left_eq_some, Option.some.injEq] at hrest
        obtain ⟨hfree, rfl⟩ := hrest
        refine ⟨⟨hsmall, hnew, hvalid, htoken, fun _ => ?_, by simp [hheld]⟩,
          by simp [Scan.add, hheld, hx hheld]⟩
        simpa using hfree
      | sx =>
        simp only [hheld, Option.ite_none_left_eq_some, Option.some.injEq] at hrest
        obtain ⟨hfree, rfl⟩ := hrest
        refine ⟨⟨hsmall, hnew, hvalid, htoken, by simp [hheld], fun _ => ?_⟩,
          by simp [Scan.add, hheld]⟩
        simpa using hfree
    · rintro ⟨h, rfl⟩
      refine ⟨_, ⟨h.token, rfl⟩, ?_⟩
      cases hheld : e.heldMode with
      | i => simp [Scan.add, hheld]
      | s => simp [Scan.add, hheld]
      | x =>
        obtain ⟨h₁, h₂, h₃⟩ := h.x hheld
        simp [Scan.add, hheld, h₁, h₂, h₃, hx hheld]
      | sx =>
        obtain ⟨h₁, h₂⟩ := h.sx hheld
        simp [Scan.add, hheld, h₁, h₂]

end Entry

/-! ### The whole list -/

/-- The entries that hold `m`. -/
def holding (m : Mode) (es : List QueryResult) : List QueryResult := es.filter fun e => e.heldMode = m

/-- The entries with a token. -/
def tokens (es : List QueryResult) : List QueryResult := es.filter fun e => e.reserveMode ≠ .i

/-- What the loop has collected from the entries `es`. -/
structure Tallied (es : List QueryResult) (st : Scan) : Prop where
  seen : ∀ n, n ∈ st.seenNodes ↔ ∃ e ∈ es, e.nodeId = n
  x : st.xHolder.toList = holding .x es
  sx : st.sxHolder.toList = holding .sx es
  token : st.reserveEntry.toList = tokens es
  bitmap : ∀ i, i ∈ Bits.ones st.sharedBitmap ↔ ∃ e ∈ es, e.nodeId.val = i ∧ e.hasSharedRef = true
  count : st.sharedCount = (Bits.ones st.sharedBitmap).card

/-- What the loop and the two checks after it demand of the holders, whatever their order. -/
structure Compatible (es : List QueryResult) : Prop where
  small : ∀ e ∈ es, e.nodeId.val < ubMaxNodes
  nodup : (es.map (·.nodeId)).Nodup
  valid : ∀ e ∈ es, isValidQueryResultEntry e = true
  tokenHeld : ∀ e ∈ es, e.reserveMode ≠ .i → e.heldMode = .i ∨ e.heldMode = .s
  oneX : (holding .x es).length ≤ 1
  oneSx : (holding .sx es).length ≤ 1
  oneToken : (tokens es).length ≤ 1
  alone : ∀ e ∈ es, e.heldMode = .x → ∀ e' ∈ es, e'.heldMode ≠ .sx ∧ e'.hasSharedRef = false

section List

variable {es es' : List QueryResult} {st st' : Scan} {e : QueryResult}

theorem tallied_init : Tallied [] .init where
  seen := by simp [Scan.init]
  x := rfl
  sx := rfl
  token := rfl
  bitmap := by simp [Scan.init]
  count := by simp [Scan.init]

theorem toList_add {p : QueryResult → Prop} [DecidablePred p] {o : Option QueryResult}
    (h : o.toList = es.filter fun e => p e) (hone : p e → o = none) :
    (if p e then some e else o).toList = (es ++ [e]).filter fun e => p e := by
  by_cases hp : p e
  · have hnil : es.filter (fun e => p e) = [] := by rw [← h, hone hp]; rfl
    simp [hp, hnil]
  · simp [hp, h]

theorem Tallied.add (h : Tallied es st) (ha : Admits st e) : Tallied (es ++ [e]) (st.add e) := by
  have h32 : e.nodeId.val < 32 := ha.small.trans (by decide)
  refine ⟨fun n => ?_, toList_add h.x fun hx => (ha.x hx).1, toList_add h.sx fun hx => (ha.sx hx).1,
    toList_add h.token fun hr => (ha.token hr).2, fun i => ?_, ?_⟩
  · simp only [Scan.add, List.mem_cons, h.seen, List.mem_append, List.not_mem_nil, or_false,
      or_and_right, exists_or, exists_eq_left]
    rw [or_comm, eq_comm]
  · simp only [Scan.add, List.mem_append, List.mem_cons, List.not_mem_nil, or_false, or_and_right,
      exists_or, exists_eq_left]
    by_cases hs : e.hasSharedRef = true
    · rw [if_pos hs, Bits.ones_setBit _ h32, Finset.mem_insert, h.bitmap]
      simp only [hs, and_true]
      rw [or_comm, eq_comm]
    · rw [if_neg hs, h.bitmap]
      simp [hs]
  · -- the bit is a new one, since the node has not been seen
    have hfresh : e.nodeId.val ∉ Bits.ones st.sharedBitmap := by
      rw [h.bitmap]
      rintro ⟨e', he', heq, -⟩
      exact ha.new ((h.seen _).mpr ⟨e', he', Fin.ext heq⟩)
    by_cases hs : e.hasSharedRef = true
    · simp only [Scan.add, if_pos hs]
      rw [Bits.ones_setBit _ h32, Finset.card_insert_of_notMem hfresh, h.count]
    · simp only [Scan.add, if_neg hs]
      exact h.count

theorem foldlM_snoc : (es ++ [e]).foldlM scanEntry .init = some st' ↔
    ∃ st, es.foldlM scanEntry .init = some st ∧ Admits st e ∧ st' = st.add e := by
  rw [List.foldlM_append]
  simp only [List.foldlM_cons, List.foldlM_nil, bind_pure, Option.bind_eq_bind,
    Option.bind_eq_some_iff, scanEntry_iff]

/-- What the loop accepts, without the checks that follow it. -/
theorem tallied_of_foldlM (h : es.foldlM scanEntry .init = some st) : Tallied es st ∧
    (∀ e ∈ es, e.nodeId.val < ubMaxNodes) ∧ (es.map (·.nodeId)).Nodup ∧
    (∀ e ∈ es, isValidQueryResultEntry e = true) ∧
    ∀ e ∈ es, e.reserveMode ≠ .i → e.heldMode = .i ∨ e.heldMode = .s := by
  induction es using List.reverseRecOn generalizing st with
  | nil =>
    cases h
    exact ⟨tallied_init, by simp, by simp, by simp, by simp⟩
  | append_singleton es e ih =>
    obtain ⟨st₀, h₀, ha, rfl⟩ := foldlM_snoc.mp h
    obtain ⟨ht, hsmall, hnodup, hvalid, htoken⟩ := ih h₀
    refine ⟨ht.add ha, ?_, ?_, ?_, ?_⟩
    · simpa [or_imp, forall_and] using ⟨hsmall, ha.small⟩
    · rw [List.map_append, List.nodup_append]
      refine ⟨hnodup, by simp, ?_⟩
      rintro n hn _ hm rfl
      obtain ⟨e', he', rfl⟩ := List.mem_map.mp hn
      have heq : e'.nodeId = e.nodeId := by simpa using hm
      exact ha.new ((ht.seen _).mpr ⟨e', he', heq⟩)
    · simpa [or_imp, forall_and] using ⟨hvalid, ha.valid⟩
    · intro e' he' hr
      rcases List.mem_append.mp he' with h' | h'
      · exact htoken e' h' hr
      · obtain rfl : e' = e := by simpa using h'
        exact (ha.token hr).1

theorem Compatible.of_sublist (h : Compatible es) (hs : es'.Sublist es) : Compatible es' where
  small e he := h.small e (hs.mem he)
  nodup := h.nodup.sublist (hs.map _)
  valid e he := h.valid e (hs.mem he)
  tokenHeld e he := h.tokenHeld e (hs.mem he)
  oneX := (hs.filter _).length_le.trans h.oneX
  oneSx := (hs.filter _).length_le.trans h.oneSx
  oneToken := (hs.filter _).length_le.trans h.oneToken
  alone e he hx e' he' := h.alone e (hs.mem he) hx e' (hs.mem he')

theorem Compatible.perm (h : Compatible es) (hp : es.Perm es') : Compatible es' where
  small e he := h.small e (hp.mem_iff.mpr he)
  nodup := (hp.map _).nodup_iff.mp h.nodup
  valid e he := h.valid e (hp.mem_iff.mpr he)
  tokenHeld e he := h.tokenHeld e (hp.mem_iff.mpr he)
  oneX := (hp.filter _).length_eq ▸ h.oneX
  oneSx := (hp.filter _).length_eq ▸ h.oneSx
  oneToken := (hp.filter _).length_eq ▸ h.oneToken
  alone e he hx e' he' := h.alone e (hp.mem_iff.mpr he) hx e' (hp.mem_iff.mpr he')

/-- An entry that may occur once and comes last is the first of its kind. -/
theorem none_of_one {p : QueryResult → Prop} [DecidablePred p] {o : Option QueryResult}
    (h : o.toList = es.filter fun e => p e) (hone : ((es ++ [e]).filter fun e => p e).length ≤ 1)
    (hp : p e) : o = none := by
  have hlen : (es.filter fun e => p e).length = 0 := by
    simp [hp] at hone
    simpa using hone
  rw [← h] at hlen
  simpa using hlen

theorem eq_none_iff {p : QueryResult → Prop} [DecidablePred p] {o : Option QueryResult}
    (h : o.toList = es.filter fun e => p e) : o = none ↔ ∀ e ∈ es, ¬ p e := by
  have hnil : o = none ↔ o.toList = [] := by simp
  rw [hnil, h]
  simp

theorem Tallied.count_eq_zero (h : Tallied es st) :
    st.sharedCount = 0 ↔ ∀ e ∈ es, e.hasSharedRef = false := by
  rw [h.count, Finset.card_eq_zero, Finset.eq_empty_iff_forall_notMem]
  constructor
  · intro hno e he
    by_contra hs
    exact hno e.nodeId.val ((h.bitmap _).mpr ⟨e, he, rfl, by simpa using hs⟩)
  · intro hno i hi
    obtain ⟨e, he, -, hs⟩ := (h.bitmap i).mp hi
    simp [hno e he] at hs

/-- The loop accepts compatible entries, in any order. -/
theorem Compatible.foldlM (h : Compatible es) : ∃ st, es.foldlM scanEntry .init = some st := by
  induction es using List.reverseRecOn with
  | nil => exact ⟨_, rfl⟩
  | append_singleton es e ih =>
    obtain ⟨st, hst⟩ := ih (h.of_sublist (List.sublist_append_left es [e]))
    obtain ⟨ht, -⟩ := tallied_of_foldlM hst
    have he : e ∈ es ++ [e] := by simp
    have hes : ∀ e' ∈ es, e' ∈ es ++ [e] := fun _ h' => List.mem_append_left _ h'
    refine ⟨st.add e, foldlM_snoc.mpr ⟨st, hst, ?_, rfl⟩⟩
    refine ⟨h.small e he, ?_, h.valid e he, fun hr => ⟨h.tokenHeld e he hr, ?_⟩, fun hx => ?_,
      fun hsx => ⟨none_of_one ht.sx h.oneSx hsx, ?_⟩⟩
    · intro hmem
      obtain ⟨e', he', heq⟩ := (ht.seen _).mp hmem
      have hnd := h.nodup
      rw [List.map_append, List.nodup_append] at hnd
      exact hnd.2.2 _ (List.mem_map_of_mem he') _ (by simp) heq
    · exact none_of_one ht.token h.oneToken hr
    · refine ⟨none_of_one ht.x h.oneX hx, (eq_none_iff ht.sx).mpr fun e' he' => ?_,
        ht.count_eq_zero.mpr fun e' he' => ?_⟩
      · exact (h.alone e he hx e' (hes e' he')).1
      · exact (h.alone e he hx e' (hes e' he')).2
    · exact (eq_none_iff ht.x).mpr fun e' he' hx => (h.alone e' (hes e' he') hx e he).1 hsx

/-- The two checks after the loop. -/
structure Sound (st : Scan) : Prop where
  alone : st.xHolder.isSome → st.sxHolder = none ∧ st.sharedCount = 0
  token : isValidDelayedReleaseRebuildState st = true

theorem validate_iff {n : NodeId} : validate n es = some st ↔
    (n.val < ubMaxNodes ∧ es.length ≤ ubMaxNodes ∧ ∃ e ∈ es, e.nodeId = n) ∧
      es.foldlM scanEntry .init = some st ∧ Sound st := by
  unfold validate
  by_cases hsize : n.val ≥ ubMaxNodes ∨ es.length = 0 ∨ es.length > ubMaxNodes
  · rw [if_pos hsize]
    refine iff_of_false (by simp) ?_
    rintro ⟨⟨hn, hlen, e, he, -⟩, -⟩
    have := List.length_pos_of_mem he
    omega
  rw [if_neg hsize]
  push Not at hsize
  by_cases hfind : ∃ e ∈ es, e.nodeId = n
  · rw [if_neg (by simpa using hfind)]
    simp only [Option.bind_eq_some_iff]
    constructor
    · rintro ⟨st₀, hst, h⟩
      split_ifs at h with halone htoken
      cases h
      refine ⟨⟨hsize.1, hsize.2.2, hfind⟩, hst, fun hx => ?_, by simpa using htoken⟩
      push Not at halone
      simpa using halone hx
    · rintro ⟨-, hst, halone, htoken⟩
      refine ⟨st, hst, ?_⟩
      rw [if_neg, if_neg (by simp [htoken])]
      rintro ⟨hx, h⟩
      obtain ⟨hsx, hcount⟩ := halone hx
      simp [hsx, hcount] at h
  · rw [if_pos (by simpa using hfind)]
    exact iff_of_false (by simp) fun h => hfind h.1.2.2

theorem Tallied.compatible (hst : es.foldlM scanEntry .init = some st) (hs : Sound st) :
    Compatible es := by
  obtain ⟨ht, hsmall, hnodup, hvalid, htoken⟩ := tallied_of_foldlM hst
  have hone : ∀ o : Option QueryResult, o.toList.length ≤ 1 := by rintro (_ | _) <;> simp
  refine ⟨hsmall, hnodup, hvalid, htoken, ht.x ▸ hone _, ht.sx ▸ hone _, ht.token ▸ hone _, ?_⟩
  intro e he hx e' he'
  have hsome : st.xHolder.isSome := by
    rw [Option.isSome_iff_ne_none]
    exact fun hnone => (eq_none_iff ht.x).mp hnone e he hx
  obtain ⟨hsx, hcount⟩ := hs.alone hsome
  exact ⟨(eq_none_iff ht.sx).mp hsx e' he', ht.count_eq_zero.mp hcount e' he'⟩

theorem eq_of_toList_perm {α : Type} {o o' : Option α} (h : o.toList.Perm o'.toList) : o = o' := by
  cases o <;> cases o' <;> simp_all

/-- What is collected does not depend on the order; only the list of nodes seen does. -/
theorem Tallied.perm (h : Tallied es st) (h' : Tallied es' st') (hp : es.Perm es') :
    st' = { st with seenNodes := st'.seenNodes } := by
  have hx : st.xHolder = st'.xHolder := eq_of_toList_perm (by rw [h.x, h'.x]; exact hp.filter _)
  have hsx : st.sxHolder = st'.sxHolder := eq_of_toList_perm (by rw [h.sx, h'.sx]; exact hp.filter _)
  have htoken : st.reserveEntry = st'.reserveEntry :=
    eq_of_toList_perm (by rw [h.token, h'.token]; exact hp.filter _)
  have hbitmap : st.sharedBitmap = st'.sharedBitmap := by
    rw [← Bits.ones_inj]
    ext i
    rw [h.bitmap, h'.bitmap]
    simp only [hp.mem_iff]
  have hcount : st.sharedCount = st'.sharedCount := by rw [h.count, h'.count, hbitmap]
  rw [hx, hsx, htoken, hbitmap, hcount]

/-- A list that is accepted is accepted in every order. -/
theorem validate_perm {n : NodeId} (h : validate n es = some st) (hp : es.Perm es') :
    ∃ nodes, validate n es' = some { st with seenNodes := nodes } := by
  obtain ⟨⟨hn, hlen, hown⟩, hst, hs⟩ := validate_iff.mp h
  obtain ⟨st', hst'⟩ := ((Tallied.compatible hst hs).perm hp).foldlM
  have heq := (tallied_of_foldlM hst).1.perm (tallied_of_foldlM hst').1 hp
  refine ⟨st'.seenNodes, validate_iff.mpr ⟨⟨hn, hp.length_eq ▸ hlen, ?_⟩, heq ▸ hst', hs.1, hs.2⟩⟩
  simpa only [hp.mem_iff] using hown

theorem validate_none_perm {n : NodeId} (h : validate n es = none) (hp : es.Perm es') :
    validate n es' = none := by
  cases h' : validate n es' with
  | none => rfl
  | some st =>
    obtain ⟨nodes, hacc⟩ := validate_perm h' hp.symm
    cases h.symm.trans hacc

end List

/-! ### The owners -/

/-- An owner field and its recursion counter, when nobody owns. -/
def unowned : ℕ × ℕ := (lockInvalidOwner, 0)

/-- The owner and recursion fields, in pairs: those of X, those of SX. -/
def ownersOf (u : UbRwLock) : (ℕ × ℕ) × (ℕ × ℕ) :=
  ((u.lockOwnerX, u.xRecursive), (u.lockOwnerSx, u.sxRecursive))

/-- The owners that `putHolder` leaves in a lock without owners. -/
def Scan.holders (st : Scan) : (ℕ × ℕ) × (ℕ × ℕ) :=
  match st.xHolder, st.sxHolder with
  | some x, _ => ((makeGlobalOwner ⟨x.holderTid, x.nodeId⟩, x.recursiveCount), unowned)
  | none, some sx => (unowned, (makeGlobalOwner ⟨sx.holderTid, sx.nodeId⟩, sx.recursiveCount))
  | none, none => (unowned, unowned)

/-- The owners with the token. -/
def Scan.owners (st : Scan) : (ℕ × ℕ) × (ℕ × ℕ) :=
  match st.reserveEntry with
  | none => st.holders
  | some e =>
    match e.reserveMode with
    | .x => ((makeGlobalOwner ⟨0, e.nodeId⟩, 1), st.holders.2)
    | .sx => (st.holders.1, (makeGlobalOwner ⟨0, e.nodeId⟩, 1))
    | .s | .i => st.holders

section Owners

variable {C : ℕ → Prop} {s : Site} {st : Scan}

theorem total_reset_owners (hC : C 0) : Total C
    (fun _ s' => ownersOf s'.shm = (unowned, unowned) ∧ s'.newBound = s.newBound)
    resetSharedLockForRebuild s := by
  unfold resetSharedLockForRebuild
  iterate 10 refine total_put hC ?_
  exact total_clearSlots hC (fun _ _ => ⟨rfl, rfl⟩) _ _

theorem total_putHolder_owners (hC : C 0) (h : ownersOf s.shm = (unowned, unowned)) :
    Total C (fun _ s' => ownersOf s'.shm = st.holders ∧ s'.newBound = s.newBound)
      (putHolder st) s := by
  obtain ⟨hx, hsx⟩ := Prod.ext_iff.mp h
  unfold putHolder
  split
  · rename_i e he
    have hh : st.holders = ((makeGlobalOwner ⟨e.holderTid, e.nodeId⟩, e.recursiveCount), unowned) := by
      simp [Scan.holders, he]
    rw [hh]
    exact total_put hC (total_put hC (total_store hC ⟨Prod.ext rfl hsx, rfl⟩))
  · rename_i e hnone he
    have hh : st.holders = (unowned, (makeGlobalOwner ⟨e.holderTid, e.nodeId⟩, e.recursiveCount)) := by
      simp [Scan.holders, hnone, he]
    rw [hh]
    exact total_put hC (total_put hC (total_store hC ⟨Prod.ext hx rfl, rfl⟩))
  · rename_i hnone he
    have hh : st.holders = (unowned, unowned) := by simp [Scan.holders, hnone, he]
    split
    · exact total_store hC ⟨h.trans hh.symm, rfl⟩
    · exact .ret ⟨h.trans hh.symm, rfl⟩

theorem total_replay_owners (hC : C 0) (h : ownersOf s.shm = st.holders) :
    Total C (fun _ s' => ownersOf s'.shm = st.owners ∧ s'.newBound = s.newBound)
      (replayDelayedReleaseState st) s := by
  obtain ⟨hx, hsx⟩ := Prod.ext_iff.mp h
  unfold replayDelayedReleaseState
  split
  · rename_i hr
    have ho : st.owners = st.holders := by simp [Scan.owners, hr]
    exact .ret ⟨h.trans ho.symm, rfl⟩
  · rename_i e hr
    refine total_put hC ?_
    cases hm : e.reserveMode with
    | x =>
      have ho : st.owners = ((makeGlobalOwner ⟨0, e.nodeId⟩, 1), st.holders.2) := by
        simp [Scan.owners, hr, hm]
      rw [ho]
      exact total_put hC (total_put hC (total_put hC (.ret ⟨Prod.ext rfl hsx, rfl⟩)))
    | sx =>
      have ho : st.owners = (st.holders.1, (makeGlobalOwner ⟨0, e.nodeId⟩, 1)) := by
        simp [Scan.owners, hr, hm]
      rw [ho]
      exact total_put hC (total_put hC (total_put hC (.ret ⟨Prod.ext hx rfl, rfl⟩)))
    | s =>
      have ho : st.owners = st.holders := by simp [Scan.owners, hr, hm]
      dsimp only
      split
      all_goals exact total_put hC (.ret ⟨h.trans ho.symm, rfl⟩)
    | i =>
      have ho : st.owners = st.holders := by simp [Scan.owners, hr, hm]
      exact .ret ⟨h.trans ho.symm, rfl⟩

theorem total_rebuildFields_owners (hC : C 0) :
    Total C (fun _ s' => ownersOf s'.shm = st.owners ∧ s'.newBound = s.newBound)
      (rebuildFields st) s := by
  refine .bind (total_clearNodeRegistry hC (fun _ _ => ?_) _)
  refine .bind ((total_reset_owners hC).mono fun _ s₁ h₁ => ?_)
  refine .bind ((total_putHolder_owners hC h₁.1).mono fun _ s₂ h₂ => ?_)
  refine .bind ((total_replay_owners hC h₂.1).mono fun b s₃ h₃ => ?_)
  refine .act ⟨0, hC, rfl⟩ fun c s' _ _ hf => ?_
  cases hf
  exact .ret ⟨h₃.1, h₃.2.trans (h₂.2.trans h₁.2)⟩

/-! ### One outcome -/

theorem determined_put {α : Type} {f : Field} {v : f.Val} {k : Unit → Call α} (hC : C 0)
    (h : Determined C (k ())) : Determined C (put f v >>= k) :=
  .bind (.store hC) fun _ => h

theorem determined_clearNodeRegistry (hC : C 0) (ns : List NodeId) :
    Determined C (clearNodeRegistry ns) := by
  induction ns with
  | nil => exact .ret ()
  | cons n ns ih => exact determined_put hC ih

theorem determined_clearSlots (hC : C 0) (payload : UbWaiter) (is : List ℕ) :
    Determined C (clearSlots payload is) := by
  induction is with
  | nil => exact .ret ()
  | cons i is ih => exact determined_put hC (determined_put hC ih)

theorem determined_rebuildFields (hC : C 0) (st : Scan) : Determined C (rebuildFields st) := by
  refine .bind (determined_clearNodeRegistry hC _) fun _ => .bind ?_ fun _ => .bind ?_ fun _ =>
    .bind ?_ fun b s => ⟨(), { Field.sharedOwnerBitmap.noted.set b s with ready := true },
      .act ⟨0, hC, rfl⟩ fun c s' _ _ hf => ?_⟩
  · unfold resetSharedLockForRebuild
    iterate 10 refine determined_put hC ?_
    exact determined_clearSlots hC _ _
  · unfold putHolder
    split
    · exact determined_put hC (determined_put hC (.store hC))
    · exact determined_put hC (determined_put hC (.store hC))
    · split
      · exact .store hC
      · exact .ret ()
  · unfold replayDelayedReleaseState
    split
    · exact .ret _
    · refine determined_put hC ?_
      split
      · exact determined_put hC (determined_put hC (determined_put hC (.ret _)))
      · exact determined_put hC (determined_put hC (determined_put hC (.ret _)))
      · split
        all_goals exact determined_put hC (.ret _)
      · exact .ret _
  · cases hf
    exact .ret ⟨rfl, rfl⟩

end Owners

/-! ### The rebuilt lock -/

/-- The entry holds `m` or keeps a token of that mode. -/
def QueryResult.takes (m : Mode) (e : QueryResult) : Bool := e.heldMode = m || e.reserveMode = m

/-- A shared object whose fields tell one story, the one of the entries `es`. -/
structure WellFormed (es : List QueryResult) (u : UbRwLock) : Prop where
  bitmap : ∀ i, i ∈ Bits.ones u.sharedOwnerBitmap ↔
    ∃ e ∈ es, e.nodeId.val = i ∧ (e.hasSharedRef = true ∨ e.reserveMode = .s)
  exclusive : es.any (QueryResult.takes .x) = true →
    u.lockWord = 0 ∧ u.sharedOwnerBitmap = 0 ∧ u.lockOwnerSx = lockInvalidOwner
  word : es.any (QueryResult.takes .x) = false → u.lockWord
    = xLockDecr - (if es.any (QueryResult.takes .sx) then 32768 else 0)
      - (Bits.ones u.sharedOwnerBitmap).card
  oneOwner : u.lockOwnerX = lockInvalidOwner ∨ u.lockOwnerSx = lockInvalidOwner
  countX : 0 < u.xRecursive ↔ u.lockOwnerX ≠ lockInvalidOwner
  countSx : 0 < u.sxRecursive ↔ u.lockOwnerSx ≠ lockInvalidOwner
  reserve : u.reserveLockOwner ≠ lockInvalidOwner ↔ (tokens es).length = 1
  inited : u.isInited = es.length

section Rebuilt

variable {es : List QueryResult} {st : Scan} {u : UbRwLock}

theorem eq_some_iff {p : QueryResult → Prop} [DecidablePred p] {o : Option QueryResult}
    (h : o.toList = es.filter fun e => p e) {e : QueryResult} : o = some e ↔ e ∈ es ∧ p e := by
  rw [← Option.mem_toList, h, List.mem_filter, decide_eq_true_eq]

/-- The modes that a token leaves room for. -/
theorem Sound.token_cases (h : Sound st) : st.reserveEntry = none ∨ ∃ r, st.reserveEntry = some r ∧
    st.xHolder = none ∧ (r.reserveMode = .x ∧ st.sxHolder = none ∧ st.sharedCount = 0 ∨
      r.reserveMode = .sx ∧ st.sxHolder = none ∨ r.reserveMode = .s) := by
  have ht := h.token
  unfold isValidDelayedReleaseRebuildState at ht
  cases hr : st.reserveEntry with
  | none => exact .inl rfl
  | some r =>
    rw [hr] at ht
    refine .inr ⟨r, rfl, ?_⟩
    cases hm : r.reserveMode <;> simp_all

theorem ones_addShared {n : NodeId} (hn : n.val < ubMaxNodes) :
    Bits.ones (addShared st n).1 = insert n.val (Bits.ones st.sharedBitmap) := by
  have h32 : n.val < 32 := hn.trans (by decide)
  unfold addShared
  split
  · exact Bits.ones_setBit _ h32
  · rename_i hset
    have hmem : n.val ∈ Bits.ones st.sharedBitmap := by
      by_contra hno
      exact hset ((Bits.and_bit_eq_zero_iff _ h32).mpr hno)
    rw [Finset.insert_eq_of_mem hmem]

theorem count_addShared {n : NodeId} (hn : n.val < ubMaxNodes)
    (h : st.sharedCount = (Bits.ones st.sharedBitmap).card) :
    (addShared st n).2 = (Bits.ones (addShared st n).1).card := by
  have h32 : n.val < 32 := hn.trans (by decide)
  rw [ones_addShared hn]
  unfold addShared
  split
  · rename_i hclear
    rw [Finset.card_insert_of_notMem ((Bits.and_bit_eq_zero_iff _ h32).mp hclear), h]
  · rename_i hset
    have hmem : n.val ∈ Bits.ones st.sharedBitmap := by
      by_contra hno
      exact hset ((Bits.and_bit_eq_zero_iff _ h32).mpr hno)
    rw [Finset.insert_eq_of_mem hmem, h]

theorem any_takes {m : Mode} (hm : m ≠ .i) {o : Option QueryResult} (ho : o.toList = holding m es)
    (h : Tallied es st) : es.any (QueryResult.takes m) = true ↔
      o.isSome ∨ ∃ r, st.reserveEntry = some r ∧ r.reserveMode = m := by
  simp only [List.any_eq_true, QueryResult.takes, Bool.or_eq_true, decide_eq_true_eq,
    Option.isSome_iff_exists, eq_some_iff ho, eq_some_iff h.token]
  constructor
  · rintro ⟨e, he, hheld | hr⟩
    · exact .inl ⟨e, he, hheld⟩
    · exact .inr ⟨e, ⟨he, hr ▸ hm⟩, hr⟩
  · rintro (⟨e, he, hheld⟩ | ⟨e, ⟨he, -⟩, hr⟩)
    · exact ⟨e, he, .inl hheld⟩
    · exact ⟨e, he, .inr hr⟩

/-- `lock_word` and the bitmap, in terms of what was collected. -/
theorem Sound.replayed_taken (h : Sound st) (hcount : st.sharedCount = (Bits.ones st.sharedBitmap).card)
    (htaken : st.xHolder.isSome ∨ ∃ r, st.reserveEntry = some r ∧ r.reserveMode = .x) :
    st.replayed = (0, 0) ∧ st.owners.2 = unowned := by
  have hzero : st.sharedCount = 0 → st.sharedBitmap = 0#32 := fun h0 =>
    Bits.card_ones_eq_zero.mp (hcount.symm.trans h0)
  rcases htaken with hx | ⟨r, hr, hm⟩
  · obtain ⟨e, he⟩ := Option.isSome_iff_exists.mp hx
    have hnone : st.reserveEntry = none := by
      rcases h.token_cases with hnone | ⟨r, -, hno, -⟩
      · exact hnone
      · simp [hno] at hx
    have hb := hzero (h.alone hx).2
    simp [Scan.replayed, Scan.owners, Scan.holders, Scan.holderWord, hnone, he, hb]
  · obtain ⟨hx, hsx, h0⟩ : st.xHolder = none ∧ st.sxHolder = none ∧ st.sharedCount = 0 := by
      rcases h.token_cases with hnone | ⟨r', hr', hx, hcase⟩
      · simp [hnone] at hr
      · obtain rfl := Option.some.inj (hr.symm.trans hr')
        simpa [hm, hx] using hcase
    simp [Scan.replayed, Scan.owners, Scan.holders, hr, hm, hx, hsx, hzero h0]

theorem Sound.replayed_word (h : Sound st) (hcount : st.sharedCount = (Bits.ones st.sharedBitmap).card)
    (hsmall : ∀ r, st.reserveEntry = some r → r.nodeId.val < ubMaxNodes)
    (hx : st.xHolder = none) (htoken : ∀ r, st.reserveEntry = some r → r.reserveMode ≠ .x) :
    st.replayed.1 = xLockDecr - (if st.sxHolder.isSome ∨
        ∃ r, st.reserveEntry = some r ∧ r.reserveMode = .sx then 32768 else 0)
      - (Bits.ones st.replayed.2).card := by
  rcases h.token_cases with hnone | ⟨r, hr, -, hcase⟩
  · simp only [Scan.replayed, hnone, Scan.holderWord, hx, hcount]
    cases st.sxHolder <;> simp [xLockDecr, xLockHalfDecr]
  · rcases hcase with ⟨hm, -⟩ | ⟨hm, hsx⟩ | hm
    · exact absurd hm (htoken r hr)
    · simp [Scan.replayed, hr, hm, hsx, hcount, xLockDecr, xLockHalfDecr]
    · simp only [Scan.replayed, hr, hm, count_addShared (hsmall r hr) hcount]
      cases st.sxHolder <;> simp [hm, xLockDecr, xLockHalfDecr]

/-- The token adds its node to the readers when it is an S token. -/
theorem Sound.ones_replayed (h : Sound st)
    (hsmall : ∀ r, st.reserveEntry = some r → r.nodeId.val < ubMaxNodes) (i : ℕ) :
    i ∈ Bits.ones st.replayed.2 ↔ i ∈ Bits.ones st.sharedBitmap ∨
      ∃ r, st.reserveEntry = some r ∧ r.reserveMode = .s ∧ r.nodeId.val = i := by
  rcases h.token_cases with hnone | ⟨r, hr, -, hcase⟩
  · simp [Scan.replayed, hnone]
  · rcases hcase with ⟨hm, -⟩ | ⟨hm, -⟩ | hm
    · simp [Scan.replayed, hr, hm]
    · simp [Scan.replayed, hr, hm]
    · simp only [Scan.replayed, hr, hm, ones_addShared (hsmall r hr), Finset.mem_insert,
        Option.some.injEq, exists_eq_left', true_and]
      rw [or_comm, eq_comm]

/-- An owner field and its counter are either both unset or both set. -/
def OwnedOrNot (p : ℕ × ℕ) : Prop := p = unowned ∨ p.1 ≠ lockInvalidOwner ∧ 0 < p.2

theorem OwnedOrNot.count {p : ℕ × ℕ} (h : OwnedOrNot p) : 0 < p.2 ↔ p.1 ≠ lockInvalidOwner := by
  rcases h with rfl | ⟨h₁, h₂⟩
  · simp [unowned]
  · exact iff_of_true h₂ h₁

theorem owned_of_valid {e : QueryResult} (hvalid : isValidQueryResultEntry e = true)
    (hsmall : e.nodeId.val < ubMaxNodes) (hheld : e.heldMode = .x ∨ e.heldMode = .sx) :
    OwnedOrNot (makeGlobalOwner ⟨e.holderTid, e.nodeId⟩, e.recursiveCount) := by
  refine .inr ⟨makeGlobalOwner_ne_invalid hsmall, ?_⟩
  unfold isValidQueryResultEntry at hvalid
  rcases hheld with hm | hm <;> simp_all

theorem owners_holders (h : Tallied es st) (hc : Compatible es) :
    OwnedOrNot st.holders.1 ∧ OwnedOrNot st.holders.2 ∧
      (st.holders.1 = unowned ∨ st.holders.2 = unowned) := by
  unfold Scan.holders
  split
  · rename_i e he
    obtain ⟨hmem, hm⟩ := (eq_some_iff h.x).mp he
    exact ⟨owned_of_valid (hc.valid e hmem) (hc.small e hmem) (.inl hm), .inl rfl, .inr rfl⟩
  · rename_i e _ he
    obtain ⟨hmem, hm⟩ := (eq_some_iff h.sx).mp he
    exact ⟨.inl rfl, owned_of_valid (hc.valid e hmem) (hc.small e hmem) (.inr hm), .inl rfl⟩
  · exact ⟨.inl rfl, .inl rfl, .inl rfl⟩

/-- At most one owner is left, and the counters agree with the owners. -/
theorem owners_sound (h : Tallied es st) (hc : Compatible es) (hs : Sound st) :
    OwnedOrNot st.owners.1 ∧ OwnedOrNot st.owners.2 ∧
      (st.owners.1 = unowned ∨ st.owners.2 = unowned) := by
  have hholders := owners_holders h hc
  rcases hs.token_cases with hnone | ⟨r, hr, hx, hcase⟩
  · have ho : st.owners = st.holders := by simp [Scan.owners, hnone]
    rw [ho]
    exact hholders
  · have hsmall := hc.small r ((eq_some_iff h.token).mp hr).1
    have htoken : OwnedOrNot (makeGlobalOwner ⟨0, r.nodeId⟩, 1) :=
      .inr ⟨makeGlobalOwner_ne_invalid hsmall, Nat.one_pos⟩
    rcases hcase with ⟨hm, hsx, -⟩ | ⟨hm, hsx⟩ | hm
    · have ho : st.owners = ((makeGlobalOwner ⟨0, r.nodeId⟩, 1), unowned) := by
        simp [Scan.owners, Scan.holders, hr, hm, hx, hsx]
      rw [ho]
      exact ⟨htoken, .inl rfl, .inr rfl⟩
    · have ho : st.owners = (unowned, (makeGlobalOwner ⟨0, r.nodeId⟩, 1)) := by
        simp [Scan.owners, Scan.holders, hr, hm, hx, hsx]
      rw [ho]
      exact ⟨.inl rfl, htoken, .inl rfl⟩
    · have ho : st.owners = st.holders := by simp [Scan.owners, hr, hm]
      rw [ho]
      exact hholders

/-- What `rebuildFields` writes from an accepted list is well formed. -/
theorem wellFormed_of_written (h : Tallied es st) (hc : Compatible es) (hs : Sound st)
    (hw : Written st u) (ho : ownersOf u = st.owners) (hinit : u.isInited = es.length) :
    WellFormed es u := by
  have htokenSmall : ∀ r, st.reserveEntry = some r → r.nodeId.val < ubMaxNodes := fun r hr =>
    hc.small r ((eq_some_iff h.token).mp hr).1
  obtain ⟨hownX, hownSx, hone⟩ := owners_sound h hc hs
  rw [← ho] at hownX hownSx hone
  refine ⟨fun i => ?_, fun htaken => ?_, fun hfree => ?_, ?_, hownX.count, hownSx.count, ?_, hinit⟩
  · rw [hw.bitmap, hs.ones_replayed htokenSmall, h.bitmap]
    simp only [eq_some_iff h.token]
    constructor
    · rintro (⟨e, he, hi, hshared⟩ | ⟨e, ⟨he, -⟩, hm, hi⟩)
      · exact ⟨e, he, hi, .inl hshared⟩
      · exact ⟨e, he, hi, .inr hm⟩
    · rintro ⟨e, he, hi, hshared | hm⟩
      · exact .inl ⟨e, he, hi, hshared⟩
      · exact .inr ⟨e, ⟨he, by simp [hm]⟩, hm, hi⟩
  · obtain ⟨hrep, hsx⟩ := hs.replayed_taken h.count ((any_takes (by decide) h.x h).mp htaken)
    rw [hw.word, hw.bitmap, hrep]
    refine ⟨rfl, rfl, ?_⟩
    rw [← ho] at hsx
    exact congrArg Prod.fst hsx
  · have hno := (any_takes (by decide) h.x h).not.mp (by simp [hfree])
    push Not at hno
    rw [hw.word, hw.bitmap, hs.replayed_word h.count htokenSmall (by simpa using hno.1) hno.2]
    simp only [any_takes (m := .sx) (by decide) h.sx h]
  · exact hone.imp (congrArg Prod.fst) (congrArg Prod.fst)
  · rw [hw.reserve, ← h.token]
    cases hr : st.reserveEntry with
    | none => simp
    | some r => simpa using makeGlobalOwner_ne_invalid (htokenSmall r hr)

end Rebuilt

/-! ### Any order -/

/-- The local lock that the node has for the lock that is rebuilt from. -/
def registered (s : Site) (n : NodeId) (same : Bool) : Bool :=
  if same then s.newBound n else s.oldBound n

section Order

variable {l : Location} {same : Bool} {es es' : List QueryResult} {st : Scan} {s s₁ : Site}

theorem total_lookupOld (hreg : registered s l.nodeId same = true) :
    Total (fun _ => True) (fun b s' => b = true ∧ s' = s) (lookupOld l.nodeId same) s := by
  unfold lookupOld
  unfold registered at hreg
  cases same with
  | true => exact total_load trivial ⟨hreg, rfl⟩
  | false => exact total_load trivial ⟨hreg, rfl⟩

theorem total_switchLocalLockBinding {e : Label} (hreg : registered s l.nodeId same = true) :
    Total (fun _ => True) (fun b s' => b = true ∧ s'.shm = s.shm)
      (switchLocalLockBinding e l.nodeId same) s := by
  unfold registered at hreg
  cases same with
  | true =>
    refine .act ⟨0, trivial, rfl⟩ fun _ s₁ _ _ hf => ?_
    cases hf
    exact .ret ⟨hreg, rfl⟩
  | false =>
    have hold : s.oldBound l.nodeId = true := hreg
    refine .act ⟨0, trivial, by simp [hold]⟩ fun _ s₁ _ _ hf => ?_
    simp only [hold, if_true] at hf
    cases hf
    exact .ret ⟨rfl, rfl⟩

/-- The shared object after the last two stores. -/
def published (n : NodeId) (count : ℕ) (u : UbRwLock) : UbRwLock :=
  { u with nodeRegistry := Function.update u.nodeRegistry n ubLockAddr, isInited := count }

/-- The initialising call: the fields, the binding, the registry and the count. -/
theorem total_rebuildInit {u : UbRwLock}
    (hfields : Total (fun _ => True) (fun _ t => t.shm = u ∧ registered t l.nodeId same = true)
      (rebuildFields st) s) :
    Total (fun _ => True) (fun r s' => r = .success ∧ s'.shm = published l.nodeId es.length u)
      (rebuildInit l same es st) s := by
  refine .bind (hfields.mono ?_)
  rintro _ s₁ ⟨rfl, hreg⟩
  refine .bind ((total_switchLocalLockBinding hreg).mono ?_)
  rintro b s₂ ⟨rfl, hshm⟩
  rw [if_neg (by simp)]
  refine .bind (total_store trivial (.bind (.act ⟨0, trivial, rfl⟩ fun _ s₃ _ _ hf => ?_)))
  cases hf
  refine .ret (.ret ⟨rfl, ?_⟩)
  rw [← hshm]
  rfl

/-- A lock that nobody has initialised is initialised by the caller. -/
theorem total_rebuild {r : Result} {u : UbRwLock} (hst : validate l.nodeId es = some st)
    (hreg : registered s l.nodeId same = true) (hfresh : s.shm.isInited = 0)
    (hinit : Total (fun _ => True) (fun r' s' => r' = r ∧ s'.shm = u) (rebuildInit l same es st)
      (s.enter l rebuildInitInProgress)) :
    Total (fun _ => True) (fun r' s' => r' = r ∧ s'.shm = u) (rebuild l same es) s := by
  unfold rebuild
  rw [hst]
  refine .bind ((total_lookupOld hreg).mono ?_)
  rintro b s₁ ⟨rfl, rfl⟩
  rw [if_neg (by simp)]
  refine .bind (.act ⟨0, trivial, by simp [hfresh]⟩ fun _ s₂ _ _ hf => ?_)
  simp only [hfresh, if_true] at hf
  cases hf
  exact .ret hinit

/-- The fields depend on what was collected, not on the list of nodes seen. -/
theorem rebuildFields_seenNodes (nodes : List NodeId) :
    rebuildFields { st with seenNodes := nodes } = rebuildFields st := rfl

/-- What the fields are after an accepted list; the node keeps its binding. -/
theorem total_rebuildFields_all (st : Scan) (hreg : registered s l.nodeId same = true) :
    ∃ u, Written st u ∧ ownersOf u = st.owners ∧
      Total (fun _ => True) (fun _ t => t.shm = u ∧ registered t l.nodeId same = true)
        (rebuildFields st) s := by
  obtain ⟨_, t, ht⟩ := determined_rebuildFields (C := fun _ => True) trivial st s
  have hall := ht.and ((total_rebuildFields trivial st).and (total_rebuildFields_owners trivial))
  obtain ⟨_, _, -, ⟨-, rfl⟩, ⟨hw, hold⟩, howners, hnew⟩ := hall.exists_run
  refine ⟨_, hw, howners, ht.mono ?_⟩
  rintro _ _ ⟨-, rfl⟩
  refine ⟨rfl, ?_⟩
  unfold registered at *
  rw [hold, hnew]
  exact hreg

end Order

/-- `rebuild` on a lock that nobody has initialised, by a node with a local lock for the old one:
    it returns, what it answers and what it leaves in shared memory do not depend on the order of
    the query results, and when it answers success the lock is well formed. -/
theorem rebuild_order_independent (l : Location) (same : Bool) {es es' : List QueryResult}
    (hperm : es.Perm es') {s : Site} (hfresh : s.shm.isInited = 0)
    (hreg : registered s l.nodeId same = true) :
    ∃ r u, Total (fun _ => True) (fun r' s' => r' = r ∧ s'.shm = u) (rebuild l same es) s ∧
      Total (fun _ => True) (fun r' s' => r' = r ∧ s'.shm = u) (rebuild l same es') s ∧
      (r = .success → WellFormed es u) := by
  cases hst : validate l.nodeId es with
  | none =>
    refine ⟨.error, s.shm, ?_, ?_, by simp⟩
    · unfold rebuild
      rw [hst]
      exact .ret ⟨rfl, rfl⟩
    · unfold rebuild
      rw [validate_none_perm hst hperm]
      exact .ret ⟨rfl, rfl⟩
  | some st =>
    obtain ⟨nodes, hst'⟩ := validate_perm hst hperm
    obtain ⟨-, hloop, hsound⟩ := validate_iff.mp hst
    obtain ⟨u, hw, howners, hfields⟩ := total_rebuildFields_all st
      (s := s.enter l rebuildInitInProgress) hreg
    refine ⟨.success, published l.nodeId es.length u, ?_, ?_, fun _ => ?_⟩
    · exact total_rebuild hst hreg hfresh (total_rebuildInit hfields)
    · rw [hperm.length_eq]
      exact total_rebuild hst' hreg hfresh (total_rebuildInit (rebuildFields_seenNodes nodes ▸ hfields))
    · exact wellFormed_of_written (tallied_of_foldlM hloop).1 (Tallied.compatible hloop hsound) hsound
        ⟨hw.word, hw.bitmap, hw.x, hw.sx, hw.reserve⟩ howners rfl

/-- A reader on node 2, an SX holder on node 1 that reads too, and an S token on node 0. -/
def threeEntries : List QueryResult :=
  [⟨2, .s, 0, 0, true, .i⟩, ⟨1, .sx, 7, 2, true, .i⟩, ⟨0, .i, 0, 0, false, .s⟩]

/-- The three answers in two orders give one lock. -/
theorem rebuild_order_threeEntries : ∃ u,
    Total (fun _ => True) (fun r s' => r = .success ∧ s'.shm = u)
      (rebuild ⟨5, 1⟩ false threeEntries) Site.init ∧
    Total (fun _ => True) (fun r s' => r = .success ∧ s'.shm = u)
      (rebuild ⟨5, 1⟩ false threeEntries.reverse) Site.init ∧ WellFormed threeEntries u := by
  obtain ⟨r, u, h, h', hwf⟩ := rebuild_order_independent ⟨5, 1⟩ false
    (List.reverse_perm threeEntries).symm (s := Site.init) rfl rfl
  have hdone : (exec 200 (rebuild ⟨5, 1⟩ false threeEntries) Site.init).map (·.1) = some .success := by
    decide +kernel
  obtain ⟨⟨a, s'⟩, hexec, ha⟩ := Option.map_eq_some_iff.mp hdone
  obtain ⟨rfl, -⟩ := h.sound (run_of_exec hexec)
  obtain rfl : a = .success := ha
  exact ⟨u, h, h', hwf rfl⟩

end Lifecycle

end UbsAtomic
