import UbsAtomic.Lock.Lifecycle
import UbsAtomic.Lock.Histories
import UbsAtomic.Lock.Recover

/-! What a rebuild reproduces (`rebuild` of `ub_distribute_lock.cpp`).

    `Holders` says who holds a lock and which delayed-release token is left; `Encodes` says when the
    fields of a shared object are those of such a configuration; `entry n` is the truthful answer of
    node `n` to the query before the rebuild.

        Holders ── entry n, for every node ──▶ query results ── rebuild ──▶ new object
           │                                                                   ▲
           └─────────────────────────── Encodes ───────────────────────────────┘

    The loop over the results is followed with `Scanned`: what it has collected from a part of the
    nodes. It refuses a token on the node whose thread holds SX. -/

namespace UbsAtomic

open Conc Conc.Prog

namespace Lifecycle

open Shm

/-! ### Who holds the lock -/

/-- Those who hold the lock, and the node that keeps a delayed release with its mode. -/
structure Holders extends Recover.Holding where
  token : Option (NodeId × Mode)

namespace Holders

variable (c : Holders)

/-- Node `n` holds S. -/
def reads (n : NodeId) : Bool := decide (n.val ∈ c.s)

/-- Modes that exclude each other are not held together, and what is held is held at least once. -/
structure Consistent : Prop where
  countX : ∀ h, c.x = some h → 0 < h.2
  countSx : ∀ h, c.sx = some h → 0 < h.2
  x_alone : c.x.isSome → c.sx = none ∧ (∀ n, c.reads n = false) ∧ c.token = none
  tokenX_alone : ∀ n, c.token = some (n, .x) → c.sx = none ∧ ∀ m, c.reads m = false
  tokenSx_alone : ∀ n, c.token = some (n, .sx) → c.sx = none
  token_mode : ∀ n, c.token ≠ some (n, .i)

/-- Node `n` holds something or keeps the token. -/
def Involved (n : NodeId) : Prop := c.On n.val ∨ ∃ m, c.token = some (n, m)

/-- The nodes that have a unit of `lock_word` and a bit of `shared_owner_bitmap`. -/
def shared (n : NodeId) : Bool := c.reads n || decide (c.token = some (n, .s))

/-- Whether X, and whether SX, is taken by a thread or by the token. -/
def takenX : Bool := c.x.isSome || c.token.any fun t => decide (t.2 = .x)

def takenSx : Bool := c.sx.isSome || c.token.any fun t => decide (t.2 = .sx)

/-- What is left of `lock_word`. -/
def word : ℤ :=
  if c.takenX then 0
  else (if c.takenSx then xLockHalfDecr else xLockDecr) - (allNodes.filter c.shared).length

/-- The shared object has the fields of the configuration. -/
structure Encodes (u : UbRwLock) : Prop where
  word : u.lockWord = c.word
  bitmap : ∀ n : NodeId, n.val < 32 → u.sharedOwnerBitmap.getLsbD n.val = c.shared n
  x : ∀ h, c.x = some h → u.lockOwnerX = makeGlobalOwner h.1 ∧ u.xRecursive = h.2
  sx : ∀ h, c.sx = some h → u.lockOwnerSx = makeGlobalOwner h.1 ∧ u.sxRecursive = h.2
  token : u.reserveLockOwner / 4294967296 = (c.token.map (·.1.val)).getD 255

/-- Two objects agree on `lock_word`, `shared_owner_bitmap`, the active holder with its recursion
    count, and the node of `reserve_lock_owner`. -/
structure Agree (u v : UbRwLock) : Prop where
  word : u.lockWord = v.lockWord
  bitmap : u.sharedOwnerBitmap = v.sharedOwnerBitmap
  x : c.x.isSome → u.lockOwnerX = v.lockOwnerX ∧ u.xRecursive = v.xRecursive
  sx : c.sx.isSome → u.lockOwnerSx = v.lockOwnerSx ∧ u.sxRecursive = v.sxRecursive
  token : u.reserveLockOwner / 4294967296 = v.reserveLockOwner / 4294967296

/-- A configuration determines the fields. -/
theorem Encodes.agree {c : Holders} {u v : UbRwLock} (hu : c.Encodes u) (hv : c.Encodes v) :
    c.Agree u v := by
  refine ⟨hu.word.trans hv.word.symm, ?_, fun hx => ?_, fun hsx => ?_, hu.token.trans hv.token.symm⟩
  · apply BitVec.eq_of_getLsbD_eq
    intro i hi
    have hn : i < 256 := by omega
    rw [hu.bitmap ⟨i, hn⟩ hi, hv.bitmap ⟨i, hn⟩ hi]
  · obtain ⟨h, hh⟩ := Option.isSome_iff_exists.mp hx
    rw [(hu.x h hh).1, (hv.x h hh).1, (hu.x h hh).2, (hv.x h hh).2]
    exact ⟨rfl, rfl⟩
  · obtain ⟨h, hh⟩ := Option.isSome_iff_exists.mp hsx
    rw [(hu.sx h hh).1, (hv.sx h hh).1, (hu.sx h hh).2, (hv.sx h hh).2]
    exact ⟨rfl, rfl⟩

theorem Encodes.of_agree {c : Holders} {u v : UbRwLock} (hu : c.Encodes u) (h : c.Agree u v) :
    c.Encodes v := by
  refine ⟨h.word ▸ hu.word, h.bitmap ▸ hu.bitmap, fun a ha => ?_, fun a ha => ?_, h.token ▸ hu.token⟩
  · obtain ⟨ho, hd⟩ := h.x (by simp [ha])
    exact ho ▸ hd ▸ hu.x a ha
  · obtain ⟨ho, hd⟩ := h.sx (by simp [ha])
    exact ho ▸ hd ▸ hu.sx a ha

/-! ### The query results -/

/-- What of `o` belongs to the nodes of the list. -/
def among {α : Type} (node : α → NodeId) (ns : List NodeId) (o : Option α) : Option α :=
  o.filter fun a => ns.contains (node a)

/-- The node of a holder. -/
def holderNode (h : Location × ℕ) : NodeId := h.1.nodeId

/-- The mode of the token that node `n` keeps. -/
def reserveMode (n : NodeId) : Mode := ((among Prod.fst [n] c.token).map (·.2)).getD .i

/-- What node `n` truthfully reports. -/
def entry (n : NodeId) : QueryResult :=
  match among holderNode [n] c.x, among holderNode [n] c.sx with
  | some h, _ => ⟨n, .x, h.1.tid, h.2, c.reads n, c.reserveMode n⟩
  | none, some h => ⟨n, .sx, h.1.tid, h.2, c.reads n, c.reserveMode n⟩
  | none, none => ⟨n, if c.reads n then .s else .i, 0, 0, c.reads n, c.reserveMode n⟩

/-- What the loop of `rebuild` accepts: holders with a thread id, and no S token on the node whose
    thread holds SX. -/
def Rebuildable : Prop :=
  (∀ h, c.x = some h → h.1.tid ≠ 0) ∧ (∀ h, c.sx = some h → h.1.tid ≠ 0) ∧
    ∀ h, c.sx = some h → c.token ≠ some (h.1.nodeId, .s)

section Among

variable {α : Type} {node : α → NodeId} {n : NodeId} {ns : List NodeId} {o : Option α} {a : α}

theorem among_eq_some : among node ns o = some a ↔ o = some a ∧ node a ∈ ns := by
  simp [among, Option.filter_eq_some_iff]

theorem among_of_mem (ho : o = some a) (h : node a ∈ ns) : among node ns o = some a :=
  among_eq_some.mpr ⟨ho, h⟩

theorem among_of_not_mem (h : ∀ a, o = some a → node a ∉ ns) : among node ns o = none := by
  cases ho : among node ns o with
  | none => rfl
  | some a => exact absurd (among_eq_some.mp ho).2 (h a (among_eq_some.mp ho).1)

theorem among_cons (h : ∀ a, o = some a → node a ≠ n) : among node (n :: ns) o = among node ns o := by
  cases o with
  | none => rfl
  | some a => simp [among, Option.filter, h a rfl]

theorem among_eq_self (h : ∀ a, o = some a → node a ∈ ns) : among node ns o = o := by
  cases o with
  | none => rfl
  | some a => exact among_of_mem rfl (h a rfl)

end Among

section Entry

variable {c : Holders} {n : NodeId}

theorem reserveMode_of_eq {m : Mode} (h : c.token = some (n, m)) : c.reserveMode n = m := by
  simp [reserveMode, h, among, Option.filter]

theorem token_of_reserveMode (h : c.reserveMode n ≠ .i) : c.token = some (n, c.reserveMode n) := by
  cases ht : among Prod.fst [n] c.token with
  | none => simp [reserveMode, ht] at h
  | some t =>
    obtain ⟨htok, hn⟩ := among_eq_some.mp ht
    obtain ⟨d, m⟩ := t
    obtain rfl : d = n := by simpa using hn
    rw [htok, reserveMode_of_eq htok]

theorem entry_x {h : Location × ℕ} (hx : c.x = some h) (hn : holderNode h = n) :
    c.entry n = ⟨n, .x, h.1.tid, h.2, c.reads n, c.reserveMode n⟩ := by
  rw [entry, among_of_mem hx (by simp [hn])]

theorem entry_sx {h : Location × ℕ} (hx : ∀ a, c.x = some a → holderNode a ≠ n) (hsx : c.sx = some h)
    (hn : holderNode h = n) : c.entry n = ⟨n, .sx, h.1.tid, h.2, c.reads n, c.reserveMode n⟩ := by
  rw [entry, among_of_not_mem fun a ha => by simpa using hx a ha, among_of_mem hsx (by simp [hn])]

theorem entry_none (hx : ∀ a, c.x = some a → holderNode a ≠ n)
    (hsx : ∀ a, c.sx = some a → holderNode a ≠ n) :
    c.entry n = ⟨n, if c.reads n then .s else .i, 0, 0, c.reads n, c.reserveMode n⟩ := by
  rw [entry, among_of_not_mem fun a ha => by simpa using hx a ha,
    among_of_not_mem fun a ha => by simpa using hsx a ha]

theorem entry_nodeId : (c.entry n).nodeId = n := by
  unfold entry
  split <;> rfl

theorem entry_hasSharedRef : (c.entry n).hasSharedRef = c.reads n := by
  unfold entry
  split <;> rfl

theorem entry_reserveMode : (c.entry n).reserveMode = c.reserveMode n := by
  unfold entry
  split <;> rfl

end Entry

end Holders

/-! ### The loop over the query results -/

/-- What the loop has collected when the nodes `ns` are behind it. -/
structure Scanned (c : Holders) (ns : List NodeId) (st : Scan) : Prop where
  seen : ∀ n, n ∈ st.seenNodes ↔ n ∈ ns
  bitmap : ∀ n : NodeId, n.val < 32 → st.sharedBitmap.getLsbD n.val = (decide (n ∈ ns) && c.reads n)
  count : st.sharedCount = (ns.filter c.reads).length
  x : st.xHolder = (Holders.among Holders.holderNode ns c.x).map fun h => c.entry h.1.nodeId
  sx : st.sxHolder = (Holders.among Holders.holderNode ns c.sx).map fun h => c.entry h.1.nodeId
  token : st.reserveEntry = (Holders.among Prod.fst ns c.token).map fun t => c.entry t.1

theorem scanned_init (c : Holders) : Scanned c [] .init := by
  refine ⟨fun n => Iff.rfl, fun n _ => by simp [Scan.init], rfl, ?_, ?_, ?_⟩ <;>
    rw [Holders.among_of_not_mem fun _ _ => List.not_mem_nil] <;> rfl

section ScanEntry

variable {c : Holders} {ns : List NodeId} {st : Scan} {n : NodeId}

/-- Nothing on `n` has been seen before. -/
theorem Holders.among_none {α : Type} {node : α → NodeId} {o : Option α} {a : α} (ho : o = some a)
    (hn : node a = n) (hnew : n ∉ ns) : Holders.among node ns o = none := by
  refine Holders.among_of_not_mem fun b hb => ?_
  obtain rfl : a = b := Option.some.inj (ho.symm.trans hb)
  rwa [hn]

theorem bitmap_add (h : Scanned c ns st) (h16 : n.val < ubMaxNodes) (i : NodeId) (hi : i.val < 32) :
    (if c.reads n then st.sharedBitmap ||| (1#32 <<< n.val) else st.sharedBitmap).getLsbD i.val
      = (decide (i ∈ n :: ns) && c.reads i) := by
  have h32 : n.val < 32 := lt_trans h16 (by decide)
  by_cases hin : i = n
  · subst hin
    cases hs : c.reads i with
    | true => simp [Bits.getLsbD_setBit _ h32]
    | false => simp [h.bitmap i hi, hs]
  · have hval : i.val ≠ n.val := fun e => hin (Fin.ext e)
    cases hs : c.reads n with
    | true => simp [Bits.getLsbD_setBit _ h32, hval, h.bitmap i hi, hin]
    | false => simp [h.bitmap i hi, hin]

theorem count_add (h : Scanned c ns st) :
    (if c.reads n then st.sharedCount + 1 else st.sharedCount) = ((n :: ns).filter c.reads).length := by
  cases hs : c.reads n <;> simp [hs, h.count]

/-- The token is taken over from the node that keeps it, unless a thread there holds SX. -/
theorem scanReserve_entry (hc : c.Consistent) (hr : c.Rebuildable) (h : Scanned c ns st)
    (hnew : n ∉ ns) : scanReserve st (c.entry n)
      = some ((Holders.among Prod.fst (n :: ns) c.token).map fun t => c.entry t.1) := by
  by_cases hmode : c.reserveMode n = .i
  · have hne : ∀ t, c.token = some t → t.1 ≠ n := by
      rintro ⟨d, m⟩ ht rfl
      have hm : m = .i := (Holders.reserveMode_of_eq ht).symm.trans hmode
      exact hc.token_mode d (hm ▸ ht)
    rw [scanReserve, Holders.entry_reserveMode, if_neg (by simpa using hmode), h.token,
      Holders.among_cons hne]
  · have htok := Holders.token_of_reserveMode hmode
    have hx : c.x = none := by
      cases hx : c.x with
      | none => rfl
      | some a => simp [(hc.x_alone (by simp [hx])).2.2] at htok
    have hsx : ∀ a, c.sx = some a → Holders.holderNode a ≠ n := by
      intro a ha e
      have hs : c.reserveMode n ≠ .s := fun e' => hr.2.2 a ha (by rw [htok, e', ← e]; rfl)
      cases hm : c.reserveMode n with
      | i => exact hmode hm
      | s => exact hs hm
      | x => simp [(hc.tokenX_alone n (hm ▸ htok)).1] at ha
      | sx => simp [hc.tokenSx_alone n (hm ▸ htok)] at ha
    have hentry := Holders.entry_none (by simp [hx]) hsx
    have hheld : ¬ (((c.entry n).heldMode ≠ .i ∧
        ¬ ((c.entry n).heldMode = .s ∧ (c.entry n).hasSharedRef = true)) ∨
        st.reserveEntry.isSome = true) := by
      rw [h.token, Holders.among_none htok rfl hnew, hentry]
      cases hs : c.reads n <;> simp
    rw [scanReserve, Holders.entry_reserveMode, if_pos hmode, if_neg hheld,
      Holders.among_of_mem htok (List.mem_cons_self ..)]
    rfl

/-- A truthful entry is well formed. -/
theorem valid_entry (hc : c.Consistent) (hr : c.Rebuildable) :
    isValidQueryResultEntry (c.entry n) = true := by
  by_cases hx : ∃ a, c.x = some a ∧ Holders.holderNode a = n
  · obtain ⟨a, ha, hn⟩ := hx
    rw [Holders.entry_x ha hn]
    simp [isValidQueryResultEntry, hr.1 a ha, hc.countX a ha, (hc.x_alone (by simp [ha])).2.1]
  push Not at hx
  by_cases hsx : ∃ a, c.sx = some a ∧ Holders.holderNode a = n
  · obtain ⟨a, ha, hn⟩ := hsx
    rw [Holders.entry_sx hx ha hn]
    simp [isValidQueryResultEntry, hr.2.1 a ha, hc.countSx a ha]
  push Not at hsx
  rw [Holders.entry_none hx hsx]
  cases hs : c.reads n <;> simp [isValidQueryResultEntry]

theorem isValidRebuildMode_eq (m : Mode) : isValidRebuildMode m = true := by
  cases m <;> rfl

/-- The loop accepts the next truthful entry. -/
theorem scanEntry_entry (hc : c.Consistent) (hr : c.Rebuildable) (h : Scanned c ns st)
    (hnew : n ∉ ns) (h16 : n.val < ubMaxNodes) :
    ∃ st', scanEntry st (c.entry n) = some st' ∧ Scanned c (n :: ns) st' := by
  have hseen : ∀ i, i ∈ n :: st.seenNodes ↔ i ∈ n :: ns := fun i => by simp [h.seen i]
  have hguard : ¬ ((c.entry n).nodeId.val ≥ ubMaxNodes ∨ (c.entry n).nodeId ∈ st.seenNodes ∨
      isValidRebuildMode (c.entry n).heldMode = false ∨
      isValidRebuildMode (c.entry n).reserveMode = false ∨
      isValidQueryResultEntry (c.entry n) = false) := by
    simp [Holders.entry_nodeId, h16, h.seen, hnew, isValidRebuildMode_eq, valid_entry hc hr]
  rw [scanEntry, if_neg hguard, scanReserve_entry hc hr h hnew, Option.bind_some]
  simp only [Holders.entry_nodeId, Holders.entry_hasSharedRef]
  by_cases hx : ∃ a, c.x = some a ∧ Holders.holderNode a = n
  · obtain ⟨a, ha, hn⟩ := hx
    obtain ⟨hsx, hs, -⟩ := hc.x_alone (by simp [ha])
    have hheld : (c.entry n).heldMode = .x := by rw [Holders.entry_x ha hn]
    have hcount : st.sharedCount = 0 := by simp [h.count, hs]
    have hnone : st.xHolder = none := by rw [h.x, Holders.among_none ha hn hnew]; rfl
    have hnone' : st.sxHolder = none := by rw [h.sx, hsx]; rfl
    refine ⟨_, by rw [hheld]; simp only [hnone, hnone', hs, hcount]; rfl, hseen, ?_, ?_, ?_, ?_, rfl⟩
    · simpa [hs] using bitmap_add h h16
    · simp [hs, List.filter_eq_nil_iff.mpr]
    · rw [Holders.among_of_mem ha (by simp [hn]), ← hn]
      rfl
    · rw [hsx]
      rfl
  push Not at hx
  have hx' : st.xHolder = (Holders.among Holders.holderNode (n :: ns) c.x).map
      fun h => c.entry h.1.nodeId := by rw [h.x, Holders.among_cons hx]
  by_cases hsx : ∃ a, c.sx = some a ∧ Holders.holderNode a = n
  · obtain ⟨a, ha, hn⟩ := hsx
    have hxnone : c.x = none := by
      cases hx' : c.x with
      | none => rfl
      | some b => simp [(hc.x_alone (by simp [hx'])).1] at ha
    have hheld : (c.entry n).heldMode = .sx := by rw [Holders.entry_sx hx ha hn]
    have hnone : st.sxHolder = none := by rw [h.sx, Holders.among_none ha hn hnew]; rfl
    have hnone' : st.xHolder = none := by rw [h.x, hxnone]; rfl
    refine ⟨_, by rw [hheld]; simp only [hnone, hnone']; rfl, hseen, bitmap_add h h16, count_add h,
      ?_, ?_, rfl⟩
    · rw [hxnone]
      rfl
    · rw [Holders.among_of_mem ha (by simp [hn]), ← hn]
      rfl
  push Not at hsx
  have hsx' : st.sxHolder = (Holders.among Holders.holderNode (n :: ns) c.sx).map
      fun h => c.entry h.1.nodeId := by rw [h.sx, Holders.among_cons hsx]
  have hheld : (c.entry n).heldMode = .s ∨ (c.entry n).heldMode = .i := by
    rw [Holders.entry_none hx hsx]
    cases c.reads n <;> simp
  rcases hheld with hheld | hheld <;> rw [hheld] <;>
    exact ⟨_, rfl, hseen, bitmap_add h h16, count_add h, hx', hsx', rfl⟩

/-- The loop accepts the truthful entries of all nodes, in any order. -/
theorem foldlM_scanEntry (hc : c.Consistent) (hr : c.Rebuildable) {nodes : List NodeId}
    (h : Scanned c ns st) (hnd : (nodes.reverse ++ ns).Nodup)
    (h16 : ∀ n ∈ nodes, n.val < ubMaxNodes) :
    ∃ st', (nodes.map c.entry).foldlM scanEntry st = some st' ∧ Scanned c (nodes.reverse ++ ns) st' := by
  induction nodes generalizing st ns with
  | nil => exact ⟨st, rfl, h⟩
  | cons n nodes ih =>
    rw [List.reverse_cons, List.append_assoc] at hnd ⊢
    have hnew : n ∉ ns := (List.nodup_cons.mp (List.nodup_append.mp hnd).2.1).1
    obtain ⟨st', hst, h'⟩ := scanEntry_entry hc hr h hnew (h16 n List.mem_cons_self)
    obtain ⟨st'', hfold, h''⟩ := ih h' hnd fun i hi => h16 i (List.mem_cons_of_mem _ hi)
    exact ⟨st'', by simp [hst, hfold], h''⟩

end ScanEntry

/-! ### What is refused -/

/-- An entry that no state of the loop accepts makes the loop fail. -/
theorem foldlM_none {results : List QueryResult} {e : QueryResult} (he : e ∈ results)
    (h : ∀ st, scanEntry st e = none) (st : Scan) : results.foldlM scanEntry st = none := by
  induction results generalizing st with
  | nil => cases he
  | cons r results ih =>
    rw [List.foldlM_cons]
    rcases List.mem_cons.mp he with rfl | he
    · rw [h]
      rfl
    · cases hr : scanEntry st r with
      | none => rfl
      | some st' => exact ih he st'

theorem scanEntry_of_invalid {e : QueryResult} (he : isValidQueryResultEntry e = false) (st : Scan) :
    scanEntry st e = none :=
  if_pos (.inr (.inr (.inr (.inr he))))

/-- A token on a node whose thread holds SX. -/
theorem scanEntry_of_token {e : QueryResult} (hmode : e.reserveMode ≠ .i) (hheld : e.heldMode = .sx)
    (st : Scan) : scanEntry st e = none := by
  unfold scanEntry
  split
  · rfl
  · rw [scanReserve, if_pos hmode, if_pos (.inl ⟨by simp [hheld], by simp [hheld]⟩)]
    rfl

/-- The truthful entry of some node is refused unless the configuration is `Rebuildable`. -/
theorem exists_refused {c : Holders} (hc : c.Consistent) (hr : ¬ c.Rebuildable) :
    ∃ n, c.Involved n ∧ ∀ st, scanEntry st (c.entry n) = none := by
  by_cases hx : ∃ a, c.x = some a ∧ a.1.tid = 0
  · obtain ⟨a, ha, htid⟩ := hx
    refine ⟨Holders.holderNode a, .inl (.inl ⟨a, ha, rfl⟩), scanEntry_of_invalid ?_⟩
    simp [Holders.entry_x ha rfl, isValidQueryResultEntry, htid]
  push Not at hx
  have hxnone : ∀ {a}, c.sx = some a → c.x = none := by
    intro a ha
    cases hx' : c.x with
    | none => rfl
    | some b => simp [(hc.x_alone (by simp [hx'])).1] at ha
  by_cases hsx : ∃ a, c.sx = some a ∧ a.1.tid = 0
  · obtain ⟨a, ha, htid⟩ := hsx
    refine ⟨Holders.holderNode a, .inl (.inr (.inl ⟨a, ha, rfl⟩)), scanEntry_of_invalid ?_⟩
    simp [Holders.entry_sx (by simp [hxnone ha]) ha rfl, isValidQueryResultEntry, htid]
  push Not at hsx
  have htok : ∃ a, c.sx = some a ∧ c.token = some (a.1.nodeId, .s) := by
    by_contra hno
    push Not at hno
    exact hr ⟨hx, hsx, hno⟩
  obtain ⟨a, ha, htok⟩ := htok
  refine ⟨a.1.nodeId, .inl (.inr (.inl ⟨a, ha, rfl⟩)), scanEntry_of_token ?_ ?_⟩
  · rw [Holders.entry_reserveMode, Holders.reserveMode_of_eq htok]
    decide
  · rw [Holders.entry_sx (n := a.1.nodeId) (by simp [hxnone ha]) ha rfl]

/-! ### All that the arguments say -/

/-- What is collected from the entries of all nodes. -/
structure Collected (c : Holders) (st : Scan) : Prop where
  bitmap : ∀ n : NodeId, n.val < 32 → st.sharedBitmap.getLsbD n.val = c.reads n
  count : st.sharedCount = (allNodes.filter c.reads).length
  x : st.xHolder = c.x.map fun h => c.entry h.1.nodeId
  sx : st.sxHolder = c.sx.map fun h => c.entry h.1.nodeId
  token : st.reserveEntry = c.token.map fun t => c.entry t.1

theorem nodup_allNodes : allNodes.Nodup := by decide

theorem mem_allNodes {n : NodeId} : n ∈ allNodes ↔ n.val < ubMaxNodes := by
  constructor
  · intro h
    obtain ⟨i, hi, rfl⟩ := List.mem_map.mp h
    have hlt := List.mem_range.mp hi
    simp only [ubMaxNodes] at *
    rw [Fin.val_ofNat]
    omega
  · intro h
    refine List.mem_map.mpr ⟨n.val, List.mem_range.mpr h, ?_⟩
    simp

/-- The nodes of a complete list are counted as in the list of all nodes. -/
theorem length_filter {p : NodeId → Bool} {nodes : List NodeId} (hnd : nodes.Nodup)
    (h16 : ∀ n ∈ nodes, n.val < ubMaxNodes) (hall : ∀ n, p n = true → n ∈ nodes) :
    (nodes.filter p).length = (allNodes.filter p).length := by
  refine ((List.perm_ext_iff_of_nodup (hnd.filter _) (nodup_allNodes.filter _)).mpr fun n => ?_).length_eq
  simp only [List.mem_filter, mem_allNodes]
  exact ⟨fun h => ⟨h16 n h.1, h.2⟩, fun h => ⟨hall n h.2, h.2⟩⟩

section Collect

variable {c : Holders} {nodes : List NodeId} {st : Scan}

theorem Scanned.collected (h : Scanned c nodes st) (hnd : nodes.Nodup)
    (h16 : ∀ n ∈ nodes, n.val < ubMaxNodes) (hall : ∀ n, c.Involved n → n ∈ nodes) :
    Collected c st := by
  have hs : ∀ n, c.reads n = true → n ∈ nodes := fun n hn =>
    hall n (.inl (.inr (.inr (of_decide_eq_true hn))))
  refine ⟨fun n hn => ?_, h.count.trans (length_filter hnd h16 hs), ?_, ?_, ?_⟩
  · rw [h.bitmap n hn]
    cases hb : c.reads n with
    | true => simp [hs n hb]
    | false => simp
  · rw [h.x, Holders.among_eq_self fun a ha => hall (Holders.holderNode a) (.inl (.inl ⟨a, ha, rfl⟩))]
  · rw [h.sx, Holders.among_eq_self fun a ha =>
      hall (Holders.holderNode a) (.inl (.inr (.inl ⟨a, ha, rfl⟩)))]
  · rw [h.token, Holders.among_eq_self fun a ha => hall _ (.inr ⟨a.2, ha⟩)]

theorem Collected.count_eq_zero (h : Collected c st) (hs : ∀ n, c.reads n = false) :
    st.sharedCount = 0 := by
  simp [h.count, hs]

/-- The checks after the loop pass. -/
theorem Collected.valid (hc : c.Consistent) (h : Collected c st) :
    ¬ (st.xHolder.isSome = true ∧ (st.sxHolder.isSome = true ∨ st.sharedCount > 0)) ∧
      isValidDelayedReleaseRebuildState st = true := by
  constructor
  · rintro ⟨hx, hother⟩
    rw [h.x, Option.isSome_map] at hx
    obtain ⟨hsx, hs, -⟩ := hc.x_alone hx
    simp [h.sx, hsx, h.count_eq_zero hs] at hother
  · cases ht : c.token with
    | none => simp [isValidDelayedReleaseRebuildState, h.token, ht]
    | some t =>
      obtain ⟨d, m⟩ := t
      have hx : c.x = none := by
        cases hx : c.x with
        | none => rfl
        | some a => simp [(hc.x_alone (by simp [hx])).2.2] at ht
      have hm : (c.entry d).reserveMode = m := by
        rw [Holders.entry_reserveMode, Holders.reserveMode_of_eq ht]
      simp only [isValidDelayedReleaseRebuildState, h.token, ht, Option.map_some, hm, h.x, hx, h.sx]
      cases m with
      | x =>
        obtain ⟨hsx, hs⟩ := hc.tokenX_alone d ht
        simp [hsx, h.count_eq_zero hs]
      | sx => simp [hc.tokenSx_alone d ht]
      | s => rfl
      | i => exact absurd ht (hc.token_mode d)

/-- The truthful query results of all nodes pass, in any order, with any nodes that hold nothing
    among them. -/
theorem validate_entries (hc : c.Consistent) (hr : c.Rebuildable) (hnd : nodes.Nodup)
    (h16 : ∀ n ∈ nodes, n.val < ubMaxNodes) (hall : ∀ n, c.Involved n → n ∈ nodes) {n : NodeId}
    (hn : n ∈ nodes) : ∃ st, validate n (nodes.map c.entry) = some st ∧ Collected c st := by
  have hnd' : (nodes.reverse ++ []).Nodup := by simpa using hnd
  obtain ⟨st, hst, hscan⟩ := foldlM_scanEntry hc hr (scanned_init c) hnd' h16
  have hcol : Collected c st := by
    refine hscan.collected hnd' (fun i hi => h16 i ?_) fun i hi => ?_
    · simpa using hi
    · simpa using hall i hi
  have hlen : nodes.length ≤ ubMaxNodes := by
    have hsub := hnd.subperm fun i hi => mem_allNodes.mpr (h16 i hi)
    simpa [allNodes] using hsub.length_le
  have hfind : ¬ ((nodes.map c.entry).find? fun e => e.nodeId = n).isNone = true := by
    simp only [Option.isNone_iff_eq_none, List.find?_eq_none, not_forall]
    exact ⟨c.entry n, List.mem_map_of_mem hn, by simp [Holders.entry_nodeId]⟩
  have hpos : nodes.length ≠ 0 := by
    intro h0
    simp [List.length_eq_zero_iff.mp h0] at hn
  refine ⟨st, ?_, hcol⟩
  have hargs : ¬ (n.val ≥ ubMaxNodes ∨ (nodes.map c.entry).length = 0 ∨
      (nodes.map c.entry).length > ubMaxNodes) := by
    rw [List.length_map]
    have := h16 n hn
    omega
  rw [validate, if_neg hargs, if_neg hfind, hst, Option.bind_some, if_neg (hcol.valid hc).1,
    if_neg (by simp [(hcol.valid hc).2])]

/-- With a refused entry among them they do not. -/
theorem validate_refused (hc : c.Consistent) (hr : ¬ c.Rebuildable)
    (hall : ∀ n, c.Involved n → n ∈ nodes) (n : NodeId) : validate n (nodes.map c.entry) = none := by
  obtain ⟨d, hd, hnone⟩ := exists_refused hc hr
  have hfold := foldlM_none (List.mem_map_of_mem (hall d hd)) hnone .init
  unfold validate
  split
  · rfl
  split
  · rfl
  rw [hfold]
  rfl

end Collect

/-! ### What is written -/

/-- `lock_word` for the holders that were found. -/
def Scan.holderWord (st : Scan) : ℤ :=
  if st.xHolder.isSome then 0
  else (if st.sxHolder.isSome then xLockHalfDecr else xLockDecr) - st.sharedCount

/-- `lock_word` and the bitmap with the token. -/
def Scan.replayed (st : Scan) : ℤ × BitVec 32 :=
  match st.reserveEntry with
  | none => (st.holderWord, st.sharedBitmap)
  | some e =>
    match e.reserveMode with
    | .x => (0, st.sharedBitmap)
    | .sx => (xLockHalfDecr - st.sharedCount, st.sharedBitmap)
    | .s => ((if st.sxHolder.isSome then xLockHalfDecr else xLockDecr) - (addShared st e.nodeId).2,
        (addShared st e.nodeId).1)
    | .i => (st.holderWord, st.sharedBitmap)

/-- The fields after `rebuildFields`; an owner is that of the active holder unless the token has
    its mode. -/
structure Written (st : Scan) (u : UbRwLock) : Prop where
  word : u.lockWord = st.replayed.1
  bitmap : u.sharedOwnerBitmap = st.replayed.2
  x : ∀ e, st.xHolder = some e → st.reserveEntry = none →
    u.lockOwnerX = makeGlobalOwner ⟨e.holderTid, e.nodeId⟩ ∧ u.xRecursive = e.recursiveCount
  sx : ∀ e, st.xHolder = none → st.sxHolder = some e →
    (∀ r, st.reserveEntry = some r → r.reserveMode ≠ .sx) →
    u.lockOwnerSx = makeGlobalOwner ⟨e.holderTid, e.nodeId⟩ ∧ u.sxRecursive = e.recursiveCount
  reserve : u.reserveLockOwner
    = (st.reserveEntry.map fun e => makeGlobalOwner ⟨0, e.nodeId⟩).getD lockInvalidOwner

section Write

variable {C : ℕ → Prop} {α : Type} {Q : α → Site → Prop} {s : Site}

theorem total_put {f : Field} {v : f.Val} {k : Unit → Call α} (hC : C 0)
    (h : Total C Q (k ()) (f.noted.set v s)) : Total C Q (put f v >>= k) s :=
  .bind (total_store hC h)

theorem total_clearNodeRegistry (hC : C 0) {Q : Unit → Site → Prop}
    (h : ∀ r fs, Q () { s with shm := { s.shm with nodeRegistry := r }, written := fs })
    (ns : List NodeId) :
    Total C Q (clearNodeRegistry ns) s := by
  induction ns generalizing s with
  | nil => exact .ret (h s.shm.nodeRegistry s.written)
  | cons n ns ih => exact total_put hC (ih fun r fs => h r fs)

theorem total_clearSlots (hC : C 0) {Q : Unit → Site → Prop}
    (h : ∀ q fs, Q () { s with shm := { s.shm with queue := q }, written := fs })
    (payload : UbWaiter) (is : List ℕ) : Total C Q (clearSlots payload is) s := by
  induction is generalizing s with
  | nil => exact .ret (h s.shm.queue s.written)
  | cons i is ih => exact total_put hC (total_put hC (ih fun q fs => h q fs))

/-- After the reset nobody holds anything. -/
structure Reset (s s' : Site) : Prop where
  word : s'.shm.lockWord = xLockDecr
  reserve : s'.shm.reserveLockOwner = lockInvalidOwner
  oldBound : s'.oldBound = s.oldBound

theorem total_reset (hC : C 0) : Total C (fun _ s' => Reset s s') resetSharedLockForRebuild s := by
  unfold resetSharedLockForRebuild
  iterate 10 refine total_put hC ?_
  exact total_clearSlots hC (fun _ _ => ⟨rfl, rfl, rfl⟩) _ _

/-- The fields after `putHolder`. -/
structure HolderWritten (st : Scan) (s s' : Site) : Prop where
  word : s'.shm.lockWord = st.holderWord
  x : ∀ e, st.xHolder = some e → s'.shm.lockOwnerX = makeGlobalOwner ⟨e.holderTid, e.nodeId⟩ ∧
    s'.shm.xRecursive = e.recursiveCount
  sx : ∀ e, st.xHolder = none → st.sxHolder = some e →
    s'.shm.lockOwnerSx = makeGlobalOwner ⟨e.holderTid, e.nodeId⟩ ∧
      s'.shm.sxRecursive = e.recursiveCount
  reserve : s'.shm.reserveLockOwner = s.shm.reserveLockOwner
  oldBound : s'.oldBound = s.oldBound

theorem total_putHolder (hC : C 0) {st : Scan} (hword : s.shm.lockWord = xLockDecr) :
    Total C (fun _ s' => HolderWritten st s s') (putHolder st) s := by
  unfold putHolder
  split
  · rename_i e hx
    refine total_put hC (total_put hC (total_store hC ?_))
    refine ⟨by simp [Scan.holderWord, hx]; rfl, fun e' he => ?_, by simp [hx], rfl, rfl⟩
    obtain rfl := Option.some.inj (hx.symm.trans he)
    exact ⟨rfl, rfl⟩
  · rename_i e hx hsx
    refine total_put hC (total_put hC (total_store hC ?_))
    refine ⟨by simp [Scan.holderWord, hx, hsx]; rfl, by simp [hx], fun e' _ he => ?_, rfl, rfl⟩
    obtain rfl := Option.some.inj (hsx.symm.trans he)
    exact ⟨rfl, rfl⟩
  · rename_i hx hsx
    have hw : st.holderWord = xLockDecr - st.sharedCount := by simp [Scan.holderWord, hx, hsx]
    split
    · exact total_store hC ⟨hw.symm, by simp [hx], by simp [hsx], rfl, rfl⟩
    · have h0 : st.sharedCount = 0 := by omega
      refine .ret ⟨?_, by simp [hx], by simp [hsx], rfl, rfl⟩
      rw [hw, hword, h0]
      rfl

theorem total_replay (hC : C 0) {st : Scan} {s₀ : Site} (h : HolderWritten st s₀ s)
    (hres : s.shm.reserveLockOwner = lockInvalidOwner) :
    Total C (fun b s' => Written st { s'.shm with sharedOwnerBitmap := b } ∧ s'.oldBound = s.oldBound)
      (replayDelayedReleaseState st) s := by
  unfold replayDelayedReleaseState
  split
  · rename_i hr
    refine .ret ⟨⟨?_, ?_, fun e he _ => h.x e he, fun e hx hsx _ => h.sx e hx hsx, ?_⟩, rfl⟩
    · simp [Scan.replayed, hr, h.word]
    · simp [Scan.replayed, hr]
    · simp [hr, hres]
  · rename_i e hr
    refine total_put hC ?_
    have hreserve : (st.reserveEntry.map fun e => makeGlobalOwner ⟨0, e.nodeId⟩).getD lockInvalidOwner
        = makeGlobalOwner ⟨0, e.nodeId⟩ := by simp [hr]
    have hno : ∀ {p : Prop}, st.reserveEntry = none → p := by simp [hr]
    cases hm : e.reserveMode with
    | x =>
      have hrep : st.replayed = (0, st.sharedBitmap) := by simp [Scan.replayed, hr, hm]
      refine total_put hC (total_put hC (total_put hC (.ret ⟨⟨?_, ?_, fun _ _ => hno, ?_, ?_⟩, rfl⟩)))
      · rw [hrep]; rfl
      · rw [hrep]
      · exact fun e hx hsx _ => h.sx e hx hsx
      · exact hreserve.symm
    | sx =>
      have hrep : st.replayed = (xLockHalfDecr - st.sharedCount, st.sharedBitmap) := by
        simp [Scan.replayed, hr, hm]
      refine total_put hC (total_put hC (total_put hC (.ret ⟨⟨?_, ?_, fun _ _ => hno, ?_, ?_⟩, rfl⟩)))
      · rw [hrep]; rfl
      · rw [hrep]
      · exact fun _ _ _ hne => absurd hm (hne e hr)
      · exact hreserve.symm
    | s =>
      have hrep : st.replayed = ((if st.sxHolder.isSome then xLockHalfDecr else xLockDecr)
          - (addShared st e.nodeId).2, (addShared st e.nodeId).1) := by
        simp [Scan.replayed, hr, hm]
      dsimp only
      split
      all_goals
        rename_i hsx
        refine total_put hC (.ret ⟨⟨?_, ?_, fun _ _ => hno, ?_, ?_⟩, rfl⟩)
        · rw [hrep]
          simp only [hsx]
          rfl
        · rw [hrep]
        · exact fun e hx hsx _ => h.sx e hx hsx
        · exact hreserve.symm
    | i =>
      have hrep : st.replayed = (st.holderWord, st.sharedBitmap) := by simp [Scan.replayed, hr, hm]
      refine .ret ⟨⟨?_, ?_, fun _ _ => hno, fun e hx hsx _ => h.sx e hx hsx, hreserve.symm⟩, rfl⟩
      · rw [hrep]; exact h.word
      · rw [hrep]

/-- `rebuild` writes what it has collected. -/
theorem total_rebuildFields (hC : C 0) (st : Scan) :
    Total C (fun _ s' => Written st s'.shm ∧ s'.oldBound = s.oldBound) (rebuildFields st) s := by
  refine .bind (total_clearNodeRegistry hC (fun _ _ => ?_) _)
  refine .bind ((total_reset hC).mono fun _ s₁ h₁ => ?_)
  refine .bind ((total_putHolder hC h₁.word).mono fun _ s₂ h₂ => ?_)
  have hres : s₂.shm.reserveLockOwner = lockInvalidOwner := h₂.reserve.trans h₁.reserve
  refine .bind ((total_replay hC h₂ hres).mono fun b s₃ h₃ => ?_)
  refine .act ⟨0, hC, rfl⟩ fun c s' _ _ hf => ?_
  cases hf
  exact .ret ⟨h₃.1, h₃.2.trans (h₂.oldBound.trans h₁.oldBound)⟩

end Write

/-! ### The rebuilt object -/

theorem and_bit_eq_zero (b : BitVec 32) {n : ℕ} (hn : n < 32) :
    b &&& (1#32 <<< n) = 0 ↔ b.getLsbD n = false := by
  constructor
  · intro h
    have hbit : (b &&& (1#32 <<< n)).getLsbD n = false := by simp [h]
    simpa [hn] using hbit
  · intro h
    apply BitVec.eq_of_getLsbD_eq
    intro i hi
    by_cases hin : i = n
    · simp [hin, h]
    · have hsub : i < n ∨ i - n ≠ 0 := by omega
      rcases hsub with hlt | hne
      · simp [hlt]
      · simp [hne]

section Rebuilt

variable {c : Holders} {st : Scan} {d : NodeId}

theorem shared_of_token {t : Option (NodeId × Mode)} (ht : c.token = t)
    (hm : ∀ n, t ≠ some (n, .s)) : c.shared = c.reads := by
  funext n
  simp [Holders.shared, ht, hm n]

/-- The node with the S token counts once, whether or not it holds S besides. -/
theorem length_shared (ht : c.token = some (d, .s)) (hd : d.val < ubMaxNodes) :
    (allNodes.filter c.shared).length
      = if c.reads d then (allNodes.filter c.reads).length else (allNodes.filter c.reads).length + 1 := by
  have hshared : ∀ n, c.shared n = (c.reads n || decide (d = n)) := fun n => by simp [Holders.shared, ht]
  cases hs : c.reads d with
  | true =>
    have heq : c.shared = c.reads := by
      funext n
      by_cases hn : d = n
      · simp [hshared, ← hn, hs]
      · simp [hshared, hn]
    rw [heq, if_pos rfl]
  | false =>
    have hnd : (d :: allNodes.filter c.reads).Nodup :=
      List.nodup_cons.mpr ⟨by simp [hs], nodup_allNodes.filter _⟩
    have hperm : (allNodes.filter c.shared).Perm (d :: allNodes.filter c.reads) := by
      refine (List.perm_ext_iff_of_nodup (nodup_allNodes.filter _) hnd).mpr fun n => ?_
      simp only [List.mem_filter, mem_allNodes, hshared, List.mem_cons, Bool.or_eq_true,
        decide_eq_true_eq]
      constructor
      · rintro ⟨hn, hs | rfl⟩
        · exact .inr ⟨hn, hs⟩
        · exact .inl rfl
      · rintro (rfl | ⟨hn, hs⟩)
        · exact ⟨hd, .inr rfl⟩
        · exact ⟨hn, .inl hs⟩
    simpa using hperm.length_eq

theorem addShared_of_collected (h : Collected c st) (hd : d.val < ubMaxNodes) :
    addShared st d = if c.reads d then (st.sharedBitmap, st.sharedCount)
      else (st.sharedBitmap ||| (1#32 <<< d.val), st.sharedCount + 1) := by
  have h32 : d.val < 32 := lt_trans hd (by decide)
  have hbit := (and_bit_eq_zero st.sharedBitmap h32).trans (by rw [h.bitmap d h32])
  cases hs : c.reads d with
  | true =>
    rw [addShared, if_neg (by simp only [hbit, hs]; decide)]
    rfl
  | false =>
    rw [addShared, if_pos (hbit.mpr hs)]
    rfl

theorem word_of_collected (hc : c.Consistent) (h : Collected c st)
    (hd : ∀ t, c.token = some t → t.1.val < ubMaxNodes) : st.replayed.1 = c.word := by
  cases hx : c.x with
  | some a =>
    obtain ⟨-, -, ht⟩ := hc.x_alone (by simp [hx])
    simp [Scan.replayed, Scan.holderWord, Holders.word, Holders.takenX, h.token, h.x, hx, ht]
  | none =>
    cases ht : c.token with
    | none =>
      have hs := shared_of_token ht (by simp)
      simp [Scan.replayed, Scan.holderWord, Holders.word, Holders.takenX, Holders.takenSx, h.token,
        h.x, h.sx, h.count, hx, ht, hs]
    | some t =>
      obtain ⟨d, m⟩ := t
      have hm : (c.entry d).reserveMode = m := by
        rw [Holders.entry_reserveMode, Holders.reserveMode_of_eq ht]
      simp only [Scan.replayed, h.token, ht, Option.map_some, hm, Holders.entry_nodeId]
      cases m with
      | i => exact absurd ht (hc.token_mode d)
      | x => simp [Holders.word, Holders.takenX, ht]
      | sx =>
        have hs := shared_of_token ht (by simp)
        simp [Holders.word, Holders.takenX, Holders.takenSx, hx, ht, hs, h.count]
      | s =>
        have hcount : ((addShared st d).2 : ℤ) = (allNodes.filter c.shared).length := by
          rw [addShared_of_collected h (hd _ ht), length_shared ht (hd _ ht), ← h.count]
          cases c.reads d <;> rfl
        simp [Holders.word, Holders.takenX, Holders.takenSx, hx, ht, h.sx, hcount]

theorem bitmap_of_collected (hc : c.Consistent) (h : Collected c st)
    (hd : ∀ t, c.token = some t → t.1.val < ubMaxNodes) (n : NodeId) (hn : n.val < 32) :
    st.replayed.2.getLsbD n.val = c.shared n := by
  cases ht : c.token with
  | none =>
    rw [shared_of_token ht (by simp), ← h.bitmap n hn]
    simp [Scan.replayed, h.token, ht]
  | some t =>
    obtain ⟨d, m⟩ := t
    have hm : (c.entry d).reserveMode = m := by
      rw [Holders.entry_reserveMode, Holders.reserveMode_of_eq ht]
    simp only [Scan.replayed, h.token, ht, Option.map_some, hm, Holders.entry_nodeId]
    cases m with
    | i => exact absurd ht (hc.token_mode d)
    | x => rw [shared_of_token ht (by simp), ← h.bitmap n hn]
    | sx => rw [shared_of_token ht (by simp), ← h.bitmap n hn]
    | s =>
      have h32 : d.val < 32 := lt_trans (hd _ ht) (by decide)
      have hshared : c.shared n = (c.reads n || decide (d = n)) := by simp [Holders.shared, ht]
      rw [hshared, addShared_of_collected h (hd _ ht)]
      by_cases hdn : d = n
      · subst hdn
        cases hs : c.reads d with
        | true => simp [h.bitmap d hn, hs]
        | false => simp [Bits.getLsbD_setBit _ h32]
      · have hval : n.val ≠ d.val := fun e => hdn (Fin.ext e.symm)
        cases hs : c.reads d with
        | true => simp [h.bitmap n hn, hdn]
        | false => simp [Bits.getLsbD_setBit _ h32, hval, h.bitmap n hn, hdn]

/-- What is written encodes the configuration that was reported. -/
theorem Written.encodes {u : UbRwLock} (hw : Written st u) (hc : c.Consistent) (h : Collected c st)
    (hd : ∀ t, c.token = some t → t.1.val < ubMaxNodes) : c.Encodes u := by
  refine ⟨hw.word.trans (word_of_collected hc h hd), fun n hn => ?_, fun a ha => ?_, fun a ha => ?_, ?_⟩
  · rw [hw.bitmap, bitmap_of_collected hc h hd n hn]
  · obtain ⟨-, -, ht⟩ := hc.x_alone (by simp [ha])
    obtain ⟨hown, hrec⟩ := hw.x (c.entry a.1.nodeId) (by simp [h.x, ha]) (by simp [h.token, ht])
    have he : c.entry a.1.nodeId = ⟨a.1.nodeId, .x, a.1.tid, a.2, _, _⟩ := Holders.entry_x ha rfl
    rw [hown, hrec, he]
    exact ⟨rfl, rfl⟩
  · have hx : c.x = none := by
      cases hx : c.x with
      | none => rfl
      | some b => simp [(hc.x_alone (by simp [hx])).1] at ha
    have hno : ∀ r, st.reserveEntry = some r → r.reserveMode ≠ .sx := by
      intro r hr e
      rw [h.token] at hr
      obtain ⟨⟨d, m⟩, ht, rfl⟩ := Option.map_eq_some_iff.mp hr
      rw [Holders.entry_reserveMode, Holders.reserveMode_of_eq ht] at e
      subst e
      simp [hc.tokenSx_alone d ht] at ha
    obtain ⟨hown, hrec⟩ := hw.sx (c.entry a.1.nodeId) (by simp [h.x, hx]) (by simp [h.sx, ha]) hno
    have he : c.entry a.1.nodeId = ⟨a.1.nodeId, .sx, a.1.tid, a.2, _, _⟩ :=
      Holders.entry_sx (by simp [hx]) ha rfl
    rw [hown, hrec, he]
    exact ⟨rfl, rfl⟩
  · rw [hw.reserve, h.token]
    cases ht : c.token with
    | none => simp [lockInvalidOwner]
    | some t =>
      simp only [Option.map_some, Option.getD_some, Holders.entry_nodeId, makeGlobalOwner]
      simp

end Rebuilt

/-- `rebuild` on a fresh lock, with the truthful answers of all nodes that are involved (and of any
    others), reproduces the old lock exactly when no S token sits on the node whose thread holds SX
    and the holders have thread ids. -/
theorem rebuild_reproduces_iff {c : Holders} (hc : c.Consistent) {old : UbRwLock}
    {nodes : List NodeId} (hnd : nodes.Nodup)
    (h16 : ∀ n ∈ nodes, n.val < ubMaxNodes) (hall : ∀ n, c.Involved n → n ∈ nodes) {l : Location}
    (hl : l.nodeId ∈ nodes) {s : Site} (hfresh : s.shm.isInited = 0)
    (hbound : s.oldBound l.nodeId = true) :
    Total (fun _ => True)
      (fun r s' => (r = .success ∧ c.Agree s'.shm old) ↔ c.Rebuildable ∧ c.Encodes old)
      (rebuild l false (nodes.map c.entry)) s := by
  by_cases hr : c.Rebuildable
  · obtain ⟨st, hst, hcol⟩ := validate_entries hc hr hnd h16 hall hl
    have hd : ∀ t, c.token = some t → t.1.val < ubMaxNodes := fun t ht =>
      h16 _ (hall _ (.inr ⟨t.2, ht⟩))
    unfold rebuild
    rw [hst]
    refine .bind (total_load trivial ?_)
    have hget : (oldBoundAt l.nodeId).get s = true := hbound
    rw [if_neg (by simp [hget])]
    refine .bind (.act ⟨0, trivial, by simp [hfresh]⟩ fun _ s₁ _ _ hf => ?_)
    simp only [hfresh, if_true] at hf
    cases hf
    refine .ret (.bind ((total_rebuildFields trivial st).mono fun _ s₂ h₂ => ?_))
    have hold₂ : s₂.oldBound l.nodeId = true := by
      rw [h₂.2]
      exact hbound
    refine .bind (.act ⟨0, trivial, by simp [hold₂]⟩ fun _ s₃ _ _ hf => ?_)
    simp only [hold₂, if_true] at hf
    cases hf
    refine .ret ?_
    rw [if_neg (by simp)]
    refine .bind (total_store trivial (.bind (.act ⟨0, trivial, rfl⟩ fun _ s₄ _ _ hf => ?_)))
    cases hf
    have henc := h₂.1.encodes hc hcol hd
    have hnew : c.Encodes (isInited.set (nodes.map c.entry).length
        ((nodeRegistry l.nodeId).set ubLockAddr
          ((newBoundAt l.nodeId).set true ((oldBoundAt l.nodeId).set false s₂)))).shm :=
      ⟨henc.word, henc.bitmap, henc.x, henc.sx, henc.token⟩
    exact .ret (.ret ⟨fun h => ⟨hr, hnew.of_agree h.2⟩, fun h => ⟨rfl, hnew.agree h.2⟩⟩)
  · unfold rebuild
    rw [validate_refused hc hr hall]
    exact .ret (iff_of_false (by simp) fun h => hr h.1)

/-- Node 2 holds S, a thread of node 1 holds SX, node 0 keeps an S token. -/
def spread : Holders := ⟨⟨none, some (⟨1, 1⟩, 1), {2}⟩, some (0, .s)⟩

def spreadLock : UbRwLock :=
  { UbRwLock.init with
    lockWord := 32766
    sharedOwnerBitmap := 5
    lockOwnerSx := makeGlobalOwner ⟨1, 1⟩
    sxRecursive := 1
    reserveLockOwner := makeGlobalOwner ⟨1, 0⟩ }

/-- The three nodes report, and node 1 rebuilds the lock. -/
theorem rebuild_reproduces_spread :
    Total (fun _ => True) (fun r s => r = .success ∧ spread.Agree s.shm spreadLock)
      (rebuild ⟨7, 1⟩ false ([2, 0, 1].map spread.entry)) Site.init := by
  have hc : spread.Consistent :=
    ⟨by simp [spread], by simp [spread], by simp [spread], by simp [spread], by simp [spread],
      by simp [spread]⟩
  have hold : spread.Encodes spreadLock :=
    ⟨by decide +kernel, by decide +kernel, by simp [spread], by simp [spread, spreadLock], by decide⟩
  have hall : ∀ n, spread.Involved n → n ∈ [2, 0, 1] := by
    rintro n ((⟨_, h, -⟩ | ⟨_, h, hn⟩ | h) | ⟨_, h⟩)
    · cases h
    · cases h
      simp [Fin.ext_iff, ← hn]
    · simp [Fin.ext_iff, Finset.mem_singleton.mp h]
    · cases h
      decide
  have hr : spread.Rebuildable := ⟨by simp [spread], by simp [spread], by simp [spread]⟩
  exact (rebuild_reproduces_iff hc (by decide +kernel) (by decide +kernel) hall
    (by decide) rfl rfl).mono
    fun _ _ h => h.mpr ⟨hr, hold⟩

/-! ### A lock that cannot be rebuilt -/

/-- `c` tells who holds the lock between two calls, and which token is left. -/
structure Describes (c : Holders) (b : Ledger.LockBoundary) : Prop where
  x : ∀ l k, c.x = some (l, k) ↔ (b.held (.app l)).x = k ∧ 0 < k
  sx : ∀ l k, c.sx = some (l, k) ↔ (b.held (.app l)).sx = k ∧ 0 < k
  s : ∀ n, c.reads n = true ↔ ∃ t, 0 < (b.held (.app ⟨t, n⟩)).s
  token : ∀ n m, c.token = some (n, m) ↔ (b.mem.ll n).localIsReserveLock = m ∧ m ≠ .i

/-- Thread 2 of node 0 holds SX, node 0 keeps an S token. -/
def tokenBesideSx : Holders := ⟨⟨none, some (⟨2, 0⟩, 1), ∅⟩, some (0, .s)⟩

theorem describes_tokenBesideSx {x : Ledger.LockBoundary}
    (hheld : ∀ l, x.held (.app l) = if l = ⟨2, 0⟩ then ⟨0, 1, 0⟩ else .none)
    (htok : ∀ n, (x.mem.ll n).localIsReserveLock = if n = 0 then .s else .i) :
    Describes tokenBesideSx x := by
  refine ⟨fun l k => ?_, fun l k => ?_, fun n => ?_, fun n m => ?_⟩
  · have h0 : (x.held (.app l)).x = 0 := by
      rw [hheld]
      split <;> rfl
    rw [h0]
    constructor
    · rintro ⟨⟩
    · omega
  · rw [hheld]
    by_cases hl : l = ⟨2, 0⟩
    · simp [tokenBesideSx, hl]
      omega
    · simp [tokenBesideSx, hl, Ne.symm hl, Holds.none]
      omega
  · have h0 : ∀ t, (x.held (.app ⟨t, n⟩)).s = 0 := by
      intro t
      rw [hheld]
      split <;> rfl
    simp [tokenBesideSx, Holders.reads, h0]
  · rw [htok]
    by_cases hn : n = 0
    · simp only [tokenBesideSx, hn, if_true, Option.some.injEq, Prod.mk.injEq, true_and]
      exact ⟨fun h => ⟨h, by rw [← h]; decide⟩, fun h => h.1⟩
    · simp only [tokenBesideSx, if_neg hn, Option.some.injEq, Prod.mk.injEq, Ne.symm hn, false_and,
        false_iff, not_and, not_not]
      exact fun h => h.symm

/-- Thread 1 of node 0 takes S, thread 2 takes SX, thread 1 releases with delay. All nodes report
    truthfully, and the lock is not rebuilt. -/
theorem rebuild_violated : ∃ x, Boundary.History (Ledger.client Ledger.nonRecursive)
      (fun _ _ e r => Ledger.Locks e r) Ledger.fresh x ∧
    Describes tokenBesideSx x ∧ tokenBesideSx.Consistent ∧ tokenBesideSx.Encodes x.mem.shm ∧
    Total (fun _ => True) (fun r _ => r = .error)
      (rebuild ⟨2, 0⟩ false (allNodes.map tokenBesideSx.entry)) Site.init := by
  obtain ⟨x, hx, h1, h2, htok, hword, hbits, hown, hrec, hres⟩ :=
    Boundary.history_of_play (Ledger.client Ledger.nonRecursive)
      (fun _ t e r => Ledger.Locks e r ∧ (t = .app ⟨1, 0⟩ ∨ t = .app ⟨2, 0⟩)) Ledger.fresh
      [(.app ⟨1, 0⟩, .call .lockS), (.app ⟨2, 0⟩, .call (.lockSx .base)),
        (.app ⟨1, 0⟩, .call (.unlockS Ledger.delayed))]
      (fun x => x.held (.app ⟨1, 0⟩) = .none ∧ x.held (.app ⟨2, 0⟩) = ⟨0, 1, 0⟩ ∧
        (∀ n, (x.mem.ll n).localIsReserveLock = if n = 0 then .s else .i) ∧
        x.mem.shm.lockWord = 32767 ∧ x.mem.shm.sharedOwnerBitmap = 1 ∧
        x.mem.shm.lockOwnerSx = makeGlobalOwner ⟨2, 0⟩ ∧ x.mem.shm.sxRecursive = 1 ∧
        x.mem.shm.reserveLockOwner = makeGlobalOwner ⟨1, 0⟩) (by decide +kernel)
  have hheld : ∀ l, x.held (.app l) = if l = ⟨2, 0⟩ then ⟨0, 1, 0⟩ else .none := by
    intro l
    by_cases hl2 : l = ⟨2, 0⟩
    · rw [hl2, h2, if_pos rfl]
    rw [if_neg hl2]
    by_cases hl1 : l = ⟨1, 0⟩
    · rw [hl1, h1]
    refine hx.held_eq fun _ t' _ _ h e => ?_
    subst e
    exact h.2.elim (fun e => hl1 (Actor.app.inj e)) fun e => hl2 (Actor.app.inj e)
  refine ⟨x, hx.mono fun _ _ _ _ h => h.1, describes_tokenBesideSx hheld htok,
    ⟨by simp [tokenBesideSx], by simp [tokenBesideSx], by simp [tokenBesideSx],
      by simp [tokenBesideSx], by simp [tokenBesideSx], by simp [tokenBesideSx]⟩,
    ⟨?_, ?_, by simp [tokenBesideSx], by simp [tokenBesideSx, hown, hrec], ?_⟩, ?_⟩
  · rw [hword]
    decide
  · rw [hbits]
    decide +kernel
  · rw [hres]
    decide
  · have hnone : validate 0 (allNodes.map tokenBesideSx.entry) = none := by decide +kernel
    unfold rebuild
    rw [hnone]
    exact .ret rfl

end Lifecycle

end UbsAtomic
