import UbsAtomic.Ring.Regions

/-! Which clusters `init` accepts.

        setup_config_and_validate ─▶ build_node_mapping ─▶ build_region_bases
                 ─▶ check_memory_capacity ─▶ create_local_rings

    The limits are stated at three places: sixteen nodes, eight priorities, and a bound on the number
    of entries of the map, which is the second where the first was meant. -/

namespace UbsAtomic

namespace Admission

open Layout

open UbsAtomic.Ring (eInval maxNodesLimit maxPriorityLevels lockRingPriority)

open Regions (Failure Local Needs Placed descOk needed addUserRings placeUserRings padding
  messageSize enomem)

/-! ### The code -/

/-- The descriptors that `init` reads. -/
def descsOf (conf : CommConf) : List RingDesc := (conf.ringDescs.getD []).take conf.numRings.toNat

/-- `my_idx`. -/
def myIndex (t : Transport) : ℕ := (getCompactIndex t t.conf.currentNodeId.toNat).toNat

/-- `check_memory_capacity` of a node with its tables. -/
def checkMemoryCapacity (area : Area) (t : Transport) : ℤ :=
  Regions.checkMemoryCapacity area.size ((t.regionSizes[myIndex t]?).getD 0)
    (t.ringRegionPtr.getD 0) (descsOf t.conf)

/-- `create_local_rings` of a node with its tables, over memory that may be written; the offsets are
    `UINT64_MAX` before it. -/
def createLocalRings (t : Transport) : Except Failure Local :=
  Regions.createLocalRings (fun _ => true) (t.ringRegionPtr.getD 0)
    (List.replicate maxPriorityLevels 18446744073709551615) (descsOf t.conf)

/-- `init` up to its rings. -/
def initRings (cpuNum : ℕ) (area : Area) (es : List RegionInfo) (conf : CommConf) (t : Transport) :
    Except Failure Local :=
  let (ret, t) := buildTables cpuNum area es conf t
  if ret ≠ 0 then .error (.returned ret)
  else
    let ret := checkMemoryCapacity area t
    if ret ≠ 0 then .error (.returned ret) else createLocalRings t

/-! ### What a cluster may be -/

/-- A descriptor the documentation allows. -/
structure ValidDesc (d : RingDesc) : Prop where
  priority : 1 ≤ d.priority.toNat ∧ d.priority.toNat ≤ 7
  capacity : d.ringCapacity < 4294967296 ∧ ∃ k, d.ringCapacity = 2 ^ k
  message : messageSize ≤ d.maxMsgSize ∧ d.maxMsgSize < 4294967296

/-- Arguments for a node of a cluster of up to sixteen nodes. -/
structure Valid (area : Area) (es : List RegionInfo) (conf : CommConf) (descs : List RingDesc) :
    Prop where
  nodes : 1 ≤ es.length ∧ es.length ≤ maxNodesLimit
  ids : (nodeIds es).Nodup
  small : ∀ e ∈ es, e.nodeId.toNat < maxNodesLimit
  regions : ∀ e ∈ es, ∃ base, e.region.ptr = some base ∧ needed base descs ≤ e.region.size ∧
    base + needed base descs < 18446744073709551616
  maxNodes : conf.maxNodes.toNat = es.length
  current : conf.currentNodeId.toNat ∈ nodeIds es
  board : billboardSize ≤ area.size ∧ ∃ ptr, area.ptr = some ptr ∧ ptr % 64 = 0
  rings : conf.ringDescs = some descs ∧ conf.numRings.toNat = descs.length
  count : 1 ≤ descs.length ∧ descs.length ≤ 7
  distinct : (descs.map fun d => d.priority.toNat).Nodup
  descs : ∀ d ∈ descs, ValidDesc d

/-- The processor the dispatcher is bound to exists, or it is not bound. -/
def CpuOk (cpuNum : ℕ) (conf : CommConf) : Prop := conf.cpuId < 0 ∨ checkCpuIdValid cpuNum conf.cpuId = true

section Steps

variable {cpuNum : ℕ} {area : Area} {es : List RegionInfo} {conf : CommConf} {descs : List RingDesc}
  {t : Transport}

/-- `setup_config_and_validate` counts the entries of the map against the number of priorities. -/
theorem configured_ok_iff (h : Valid area es conf descs) : (configured cpuNum area es conf t).1 = 0 ↔
    es.length ≤ maxPriorityLevels ∧ CpuOk cpuNum conf := by
  obtain ⟨hsize, ptr, hptr, -⟩ := h.board
  have hmax : ¬ (conf.maxNodes.toNat = 0 ∨ conf.maxNodes.toNat > maxNodesLimit) := by
    have := h.maxNodes
    have := h.nodes
    omega
  have hregions : es.any (·.region.ptr.isNone) = false := by
    rw [List.any_eq_false]
    intro e he
    obtain ⟨base, hbase, -⟩ := h.regions e he
    simp [hbase]
  have hrings : ¬ (conf.numRings.toNat < 1 ∨ conf.numRings.toNat > maxPriorityLevels) := by
    have := h.rings.2
    have := h.count
    unfold maxPriorityLevels
    omega
  have hne : es.length ≠ 0 := by
    have := h.nodes
    omega
  simp only [configured, setupConfigAndValidate, hptr]
  rw [if_neg hmax, if_neg (not_lt.mpr hsize), if_neg hne]
  by_cases hcount : es.length > maxPriorityLevels
  · rw [if_pos hcount]
    exact iff_of_false (by simp [eInval]) fun h => absurd h.1 (by omega)
  · rw [if_neg hcount, if_neg (by simp [hregions]), if_neg hrings, if_neg (by simp [h.rings.1])]
    unfold CpuOk
    split_ifs with hneg hcpu
    · simp [hneg, not_lt.mp hcount]
    · simp [hcpu, not_lt.mp hcount]
    · simp [hneg, hcpu, eInval]

theorem configured_conf (h : (configured cpuNum area es conf t).1 = 0) :
    (configured cpuNum area es conf t).2.conf = conf := by
  revert h
  simp only [configured, setupConfigAndValidate]
  split
  · split_ifs <;> simp [eInval]
  · simp [eInval]

theorem Collected.length {ids : List ℕ} (h : Collected es ids) (hnd : (nodeIds es).Nodup) :
    ids.length = es.length := by
  have hperm : ids.Perm (nodeIds es) := by
    refine (List.perm_ext_iff_of_nodup h.nodup hnd).mpr fun n => ?_
    rw [h.mem, nodeIds, List.mem_map]
  rw [hperm.length_eq, nodeIds, List.length_map]

/-- Distinct ids below the limit are as many as `max_nodes` says, and the node's own is one. -/
theorem buildNodeMapping_valid (h : Valid area es conf descs) (hconf : t.conf = conf) :
    (buildNodeMapping es t).1 = 0 := by
  obtain ⟨ids, hids⟩ := exists_collectIds h.small
  have hcol := (collected_of_collectIds hids).2
  have hlen := Collected.length hcol h.ids
  have hsort : ids.insertionSort (· ≤ ·) = ids :=
    (hcol.sorted.imp fun h => le_of_lt h).insertionSort_eq
  have hfound : ∃ i, indexIds ids conf.currentNodeId.toNat = some i := by
    obtain ⟨e, he, hn⟩ := List.mem_map.mp h.current
    obtain ⟨i, hi⟩ := List.getElem?_of_mem ((hcol.mem _).mpr ⟨e, he, hn⟩)
    exact ⟨i, (indexIds_eq_some hcol.nodup).mpr hi⟩
  obtain ⟨i, hi⟩ := hfound
  have hsize : ¬ (ids.length > maxNodesLimit ∨ ids.length ≠ conf.maxNodes.toNat) := by
    have := h.nodes
    have := h.maxNodes
    omega
  simp only [buildNodeMapping, hids, hsort, hconf]
  rw [if_neg hsize, if_neg (by simp [hi])]

/-- The node's own region, as the tables have it. -/
theorem tables_own (h : Valid area es conf descs) (hok : (buildTables cpuNum area es conf t).1 = 0) :
    let u := (buildTables cpuNum area es conf t).2
    u.conf = conf ∧ ∃ e ∈ es, u.ringRegionPtr = e.region.ptr ∧
      u.regionSizes[myIndex u]? = some e.region.size := by
  obtain ⟨hconf, hptr⟩ := buildTables_own hok
  have htables := buildTables_ok hok
  rw [configured_conf (buildTables_eq_zero.mp hok).1] at hconf
  obtain ⟨e, he, hn⟩ := List.mem_map.mp h.current
  obtain ⟨i, hi⟩ := List.getElem?_of_mem ((htables.ids.mem _).mpr ⟨e, he, rfl⟩)
  have hindex : myIndex (buildTables cpuNum area es conf t).2 = i := by
    rw [myIndex, hconf, ← hn, getCompactIndex, htables.inverse.mpr hi]
    rfl
  obtain ⟨hbase, hsize⟩ := htables.region h.ids he hi
  refine ⟨hconf, e, he, ?_, hindex ▸ hsize⟩
  rw [hptr, ← myIndex, hindex, hbase]
  rfl

/-! ### The memory of the node -/

theorem ValidDesc.descOk {d : RingDesc} (h : ValidDesc d) : descOk d = true := by
  obtain ⟨k, hk⟩ := h.capacity.2
  have hpos : d.ringCapacity ≠ 0 := by
    rw [hk]
    exact (Nat.two_pow_pos k).ne'
  have hpow : d.ringCapacity &&& (d.ringCapacity - 1) = 0 := by
    rw [hk, Nat.and_two_pow_sub_one_eq_mod, Nat.mod_self]
  have := h.priority
  simp only [Regions.descOk, decide_eq_true_eq]
  exact ⟨by omega, by unfold maxPriorityLevels; omega, hpos, hpow, h.message.1⟩

theorem addUserRings_some {ds : List RingDesc} (h : ∀ d ∈ ds, ValidDesc d) (n : Needs) :
    ∃ n', addUserRings ds n = some n' := by
  induction ds generalizing n with
  | nil => exact ⟨n, rfl⟩
  | cons d ds ih =>
    rw [addUserRings, if_pos (h d List.mem_cons_self).descOk]
    exact ih (fun d' hd' => h d' (List.mem_cons_of_mem d hd')) _

theorem checkMemoryCapacity_valid (h : Valid area es conf descs) {base limit : ℕ}
    (hfits : needed base descs ≤ limit) (hend : base + needed base descs < 18446744073709551616) :
    Regions.checkMemoryCapacity area.size limit base descs = 0 := by
  obtain ⟨n, hn⟩ := addUserRings_some h.descs
    ((Needs.mk 0 base).add Billboard.lockRingCapacity Billboard.lockRingMsgSize)
  have htotal := (Regions.counted_lock.userRings
    (fun d hd => ⟨(h.descs d hd).capacity.1, (h.descs d hd).message.2⟩) hn).1
  have hneeded : n.total = needed base descs := by
    have htotal : n.total = Ring.u64 (needed base descs) := htotal
    rw [htotal, Ring.u64, Nat.mod_eq_of_lt (by omega)]
  rw [Regions.checkMemoryCapacity, if_neg (not_lt.mpr h.board.1), hn]
  exact if_neg (by omega)

/-- Distinct priorities are all placed. -/
theorem placeUserRings_ok (base : ℕ) {ds : List RingDesc} {l : Local} (h : ∀ d ∈ ds, ValidDesc d)
    (hnd : (l.rings.map Placed.priority ++ ds.map fun d => d.priority.toNat).Nodup) :
    ∃ l', placeUserRings (fun _ => true) base ds l = .ok l' := by
  induction ds generalizing l with
  | nil => exact ⟨l, rfl⟩
  | cons d ds ih =>
    have hd := h d List.mem_cons_self
    have hok := hd.descOk
    simp only [Regions.descOk, decide_eq_true_eq] at hok
    have hnew : (l.rings.map Placed.priority).contains d.priority.toNat = false := by
      rw [List.nodup_append] at hnd
      rw [List.contains_eq_mem, decide_eq_false_iff_not]
      exact fun hmem => hnd.2.2 _ hmem _ (by simp) rfl
    rw [placeUserRings, if_neg hok.1, if_neg (by omega), if_neg (by rw [hnew]; decide),
      Regions.construct_eq_ok.mpr ⟨⟨fun _ _ => rfl, fun _ _ => rfl, hok.2.2.1, hok.2.2.2.1⟩, rfl⟩]
    refine ih (fun d' hd' => h d' (List.mem_cons_of_mem d hd')) ?_
    simpa [Local.place] using hnd

theorem createLocalRings_valid (h : Valid area es conf descs) (base : ℕ) (out : List ℕ)
    (hout : maxPriorityLevels ≤ out.length) :
    ∃ l, Regions.createLocalRings (fun _ => true) base out descs = .ok l := by
  have hnd : (lockRingPriority :: descs.map fun d => d.priority.toNat).Nodup := by
    refine List.nodup_cons.mpr ⟨fun hmem => ?_, h.distinct⟩
    obtain ⟨d, hd, hzero⟩ := List.mem_map.mp hmem
    have := (h.descs d hd).priority.1
    unfold lockRingPriority at hzero
    omega
  obtain ⟨l, hl⟩ := placeUserRings_ok base
    (l := Local.place base ⟨base, [], out, 0⟩ lockRingPriority Billboard.lockRingCapacity
      Billboard.lockRingMsgSize) h.descs hnd
  have hlock : Local.construct (fun _ => true) base ⟨base, [], out, 0⟩ lockRingPriority
      Billboard.lockRingCapacity Billboard.lockRingMsgSize = .ok _ :=
    Regions.construct_eq_ok.mpr ⟨⟨fun _ _ => rfl, fun _ _ => rfl, by simp [Local.next,
      Billboard.lockRingCapacity]⟩, rfl⟩
  rw [Regions.createLocalRings, if_neg (not_lt.mpr hout), hlock]
  refine ⟨l.withSpare, ?_⟩
  show (placeUserRings _ base descs _ >>= _) = _
  rw [hl]
  rfl

theorem descsOf_valid (h : Valid area es conf descs) : descsOf conf = descs := by
  rw [descsOf, h.rings.1, h.rings.2]
  exact List.take_length

end Steps

/-- A node of a cluster that the documentation allows gets through the five steps exactly if the map
    has at most eight entries and its processor exists. -/
theorem initRings_ok_iff (cpuNum : ℕ) {area : Area} {es : List RegionInfo} {conf : CommConf}
    {descs : List RingDesc} (t : Transport) (h : Valid area es conf descs) :
    (∃ l, initRings cpuNum area es conf t = .ok l) ↔
      es.length ≤ maxPriorityLevels ∧ CpuOk cpuNum conf := by
  rw [← configured_ok_iff (t := t) h]
  constructor
  · rintro ⟨l, hl⟩
    by_contra hno
    have hret : (buildTables cpuNum area es conf t).1 ≠ 0 := fun hz => hno (buildTables_eq_zero.mp hz).1
    simp [initRings, hret] at hl
  · intro hconf
    have hok : (buildTables cpuNum area es conf t).1 = 0 :=
      buildTables_eq_zero.mpr ⟨hconf, buildNodeMapping_valid h (configured_conf hconf)⟩
    obtain ⟨hown, e, he, hptr, hsize⟩ := tables_own h hok
    obtain ⟨base, hbase, hfits, hend⟩ := h.regions e he
    obtain ⟨l, hl⟩ := createLocalRings_valid h base
      (List.replicate maxPriorityLevels 18446744073709551615) (by simp)
    refine ⟨l, ?_⟩
    have hcheck : checkMemoryCapacity area (buildTables cpuNum area es conf t).2 = 0 := by
      rw [checkMemoryCapacity, hsize, hptr, hbase, hown, descsOf_valid h]
      exact checkMemoryCapacity_valid h hfits hend
    have hcreate : createLocalRings (buildTables cpuNum area es conf t).2 = .ok l := by
      rw [createLocalRings, hptr, hbase, hown, descsOf_valid h]
      exact hl
    simp [initRings, hok, hcheck, hcreate]

/-! ### Fixed clusters -/

/-- A map of `n` nodes, each with a megabyte. -/
def mapOf (n : ℕ) : List RegionInfo :=
  (List.range n).map fun i => ⟨⟨1048576, some (1048576 * (i + 1))⟩, UInt8.ofNat i⟩

/-- Node 0 of a cluster of `n` nodes, with one ring of four messages. -/
def confOf (n : ℕ) : CommConf := ⟨-1, UInt8.ofNat n, 0, 1, some [⟨4, 64, 1⟩]⟩

/-- The rings of `confOf` fit into a megabyte. -/
theorem needed_small (base : ℕ) (h : base % 64 = 0) : needed base [⟨4, 64, 1⟩] ≤ 1048576 := by
  rw [needed, Regions.padding_of_mod h]
  decide

theorem regions_mapOf {n : ℕ} (hn : n ≤ 16) : ∀ e ∈ mapOf n, ∃ base, e.region.ptr = some base ∧
    needed base [⟨4, 64, 1⟩] ≤ e.region.size ∧
      base + needed base [⟨4, 64, 1⟩] < 18446744073709551616 := by
  intro e he
  obtain ⟨i, hi, rfl⟩ := List.mem_map.mp he
  have hlt := List.mem_range.mp hi
  have hfits := needed_small (1048576 * (i + 1)) (by omega)
  exact ⟨1048576 * (i + 1), rfl, hfits, by omega⟩

theorem validDesc_small : ValidDesc ⟨4, 64, 1⟩ :=
  ⟨by decide, ⟨by decide, 2, rfl⟩, by decide⟩

theorem valid_mapOf {n : ℕ} (hn : n = 2 ∨ n = 9) :
    Valid someArea (mapOf n) (confOf n) [⟨4, 64, 1⟩] where
  nodes := by rcases hn with rfl | rfl <;> decide
  ids := by rcases hn with rfl | rfl <;> decide
  small := by rcases hn with rfl | rfl <;> decide
  regions := regions_mapOf (by omega)
  maxNodes := by rcases hn with rfl | rfl <;> decide
  current := by rcases hn with rfl | rfl <;> decide
  board := ⟨by decide, 4096, rfl, by decide⟩
  rings := ⟨rfl, rfl⟩
  count := by decide
  distinct := by decide
  descs := by simpa using validDesc_small

theorem initRings_ok_two : Valid someArea (mapOf 2) (confOf 2) [⟨4, 64, 1⟩] ∧
    ∃ l, initRings 1 someArea (mapOf 2) (confOf 2) blank = .ok l :=
  ⟨valid_mapOf (.inl rfl),
    (initRings_ok_iff 1 blank (valid_mapOf (.inl rfl))).mpr ⟨by decide, .inl (by decide)⟩⟩

/-- A cluster of nine nodes is refused at the first step. -/
theorem initRings_refused : Valid someArea (mapOf 9) (confOf 9) [⟨4, 64, 1⟩] ∧
    (setupConfigAndValidate 1 (some someArea) (some ⟨some (mapOf 9)⟩) (some (confOf 9)) blank).1 = eInval ∧
    initRings 1 someArea (mapOf 9) (confOf 9) blank = .error (.returned eInval) := by
  refine ⟨valid_mapOf (.inr rfl), by decide, ?_⟩
  have hret : (buildTables 1 someArea (mapOf 9) (confOf 9) blank).1 = eInval := by decide
  simp [initRings, hret, eInval]

end Admission

end UbsAtomic
