import Mathlib
import UbsAtomic.Ring.Transport

/-! The tables that say where every node's slot and rings are (`init` of `UBShmTransport.cpp`).

        ring_map            idx_to_node_id_    node_id_to_idx_    region_bases_ / region_sizes_
        (7, A) (2, B)  ──▶  [2, 7]             2 ↦ 0, 7 ↦ 1       [B, A]

    Each node builds them for itself from the map it was given. The ids are sorted, so that the
    order of the map does not matter for the first two tables; the region tables are filled entry by
    entry, and an entry overwrites an earlier one of the same node. -/

namespace UbsAtomic

namespace Layout

open UbsAtomic.Ring (eInval maxNodesLimit maxPriorityLevels)

/-! ### What the caller passes in -/

/-- `ub_shm_area_t`; a null pointer is `none`. -/
structure Area where
  size : ℕ
  ptr : Option ℕ
  deriving DecidableEq

/-- `ub_ring_region_info_t`. -/
structure RegionInfo where
  region : Area
  nodeId : UInt8
  deriving DecidableEq

/-- `ub_ring_region_map_t`: a pointer to `count` entries. -/
structure RegionMap where
  entries : Option (List RegionInfo)
  deriving DecidableEq

/-- `ub_ring_desc_t`. -/
structure RingDesc where
  ringCapacity : ℕ
  maxMsgSize : ℕ
  priority : UInt8
  deriving DecidableEq

/-- `ub_comm_conf_t`. -/
structure CommConf where
  cpuId : ℤ
  maxNodes : UInt8
  currentNodeId : UInt8
  numRings : UInt8
  ringDescs : Option (List RingDesc)
  deriving DecidableEq

/-! ### What a node keeps -/

/-- The fields of `UBShmTransport` that `init` fills before it touches shared memory. -/
structure Transport where
  cpuId : ℤ
  initRegionPtr : Option ℕ
  conf : CommConf
  nodeIdToIdx : ℕ → Option ℕ
  idxToNodeId : List ℕ
  regionBases : List (Option ℕ)
  regionSizes : List ℕ
  ringRegionPtr : Option ℕ

/-- `sizeof(Billboard)`: sixteen slots of two cache lines. -/
def billboardSize : ℕ := maxNodesLimit * 128

/-! ### The steps of `init` -/

/-- `check_cpu_id_valid`, on a machine with `cpuNum` processors online. -/
def checkCpuIdValid (cpuNum : ℕ) (cpu : ℤ) : Bool := 0 ≤ cpu ∧ cpu < cpuNum

/-- `setup_config_and_validate`. -/
def setupConfigAndValidate (cpuNum : ℕ) (initArea : Option Area) (ringMap : Option RegionMap)
    (conf : Option CommConf) (t : Transport) : ℤ × Transport :=
  match initArea, ringMap, conf with
  | some area, some map, some conf =>
    match area.ptr, map.entries with
    | some ptr, some entries =>
      if conf.maxNodes.toNat = 0 ∨ conf.maxNodes.toNat > maxNodesLimit then (eInval, t)
      else if area.size < billboardSize then (eInval, t)
      else if entries.length = 0 then (eInval, t)
      else if entries.length > maxPriorityLevels then (eInval, t)
      else if entries.any (·.region.ptr.isNone) then (eInval, t)
      else if conf.numRings.toNat < 1 ∨ conf.numRings.toNat > maxPriorityLevels then (eInval, t)
      else if conf.ringDescs.isNone then (eInval, t)
      else if conf.cpuId < 0 then
        (0, { t with cpuId := -1, initRegionPtr := some ptr, conf := conf })
      else if checkCpuIdValid cpuNum conf.cpuId then
        (0, { t with cpuId := conf.cpuId, initRegionPtr := some ptr, conf := conf })
      else (eInval, t)
    | _, _ => (eInval, t)
  | _, _, _ => (eInval, t)

/-- `insert` of a `std::set`, kept as the list of its elements in order. -/
def insertId (n : ℕ) : List ℕ → List ℕ
  | [] => [n]
  | a :: l => if n < a then n :: a :: l else if n = a then a :: l else a :: insertId n l

/-- The first loop of `build_node_mapping`: the set of ids, or `none` at an id out of range. -/
def collectIds (entries : List RegionInfo) : Option (List ℕ) :=
  entries.foldlM (fun allIds e =>
    if e.nodeId.toNat ≥ maxNodesLimit then none
    else some (insertId e.nodeId.toNat allIds)) []

/-- The second loop: `node_id_to_idx_[sorted_ids[i]] = i`. -/
def indexIds (sortedIds : List ℕ) : ℕ → Option ℕ :=
  sortedIds.zipIdx.foldl (fun idx p => Function.update idx p.1 (some p.2)) fun _ => none

/-- `build_node_mapping`. -/
def buildNodeMapping (entries : List RegionInfo) (t : Transport) : ℤ × Transport :=
  match collectIds entries with
  | none => (eInval, t)
  | some allIds =>
    if allIds.length > maxNodesLimit ∨ allIds.length ≠ t.conf.maxNodes.toNat then (eInval, t)
    else
      let sortedIds := allIds.insertionSort (· ≤ ·)
      let t := { t with nodeIdToIdx := indexIds sortedIds, idxToNodeId := sortedIds }
      if (t.nodeIdToIdx t.conf.currentNodeId.toNat).isNone then (eInval, t) else (0, t)

/-- `get_compact_index`. -/
def getCompactIndex (t : Transport) (nodeId : ℕ) : ℤ :=
  match t.nodeIdToIdx nodeId with
  | some idx => idx
  | none => -1

/-- One round of the loop of `build_region_bases`. -/
def setRegion (t : Transport) (e : RegionInfo) : Transport :=
  let idx := getCompactIndex t e.nodeId.toNat
  if idx ≥ 0 then
    { t with
      regionBases := t.regionBases.set idx.toNat e.region.ptr
      regionSizes := t.regionSizes.set idx.toNat e.region.size }
  else t

/-- `build_region_bases`. -/
def buildRegionBases (entries : List RegionInfo) (t : Transport) : ℤ × Transport :=
  let t := { t with
    regionBases := List.replicate t.idxToNodeId.length none
    regionSizes := List.replicate t.idxToNodeId.length 0 }
  let t := entries.foldl setRegion t
  let myIdx := (getCompactIndex t t.conf.currentNodeId.toNat).toNat
  (0, { t with ringRegionPtr := (t.regionBases[myIdx]?).join })

/-- The first three steps of `init`, on a map with the given entries. -/
def buildTables (cpuNum : ℕ) (area : Area) (entries : List RegionInfo) (conf : CommConf)
    (t : Transport) : ℤ × Transport :=
  let (ret, t) := setupConfigAndValidate cpuNum (some area) (some ⟨some entries⟩) (some conf) t
  if ret ≠ 0 then (ret, t)
  else
    let (ret, t) := buildNodeMapping entries t
    if ret ≠ 0 then (ret, t) else buildRegionBases entries t

/-! ### Tables filled entry by entry -/

section Writes

variable {α β κ : Type}

theorem getElem?_foldl_set_of_notMem {idx : β → ℕ} {val : β → α} {i : ℕ} :
    ∀ {es : List β} {l : List α}, i ∉ es.map idx →
      (es.foldl (fun l e => l.set (idx e) (val e)) l)[i]? = l[i]?
  | [], _, _ => rfl
  | e :: es, l, h => by
    rw [List.map_cons, List.mem_cons, not_or] at h
    rw [List.foldl_cons, getElem?_foldl_set_of_notMem h.2, List.getElem?_set_ne (Ne.symm h.1)]

/-- Where all entries write to different places, each place keeps what its entry wrote. -/
theorem getElem?_foldl_set {idx : β → ℕ} {val : β → α} {e : β} :
    ∀ {es : List β} {l : List α}, (es.map idx).Nodup → e ∈ es → idx e < l.length →
      (es.foldl (fun l e => l.set (idx e) (val e)) l)[idx e]? = some (val e)
  | a :: es, l, hnd, he, hl => by
    rw [List.map_cons, List.nodup_cons] at hnd
    rw [List.foldl_cons]
    rcases List.mem_cons.mp he with rfl | he
    · rw [getElem?_foldl_set_of_notMem hnd.1, List.getElem?_set_self hl]
    · exact getElem?_foldl_set hnd.2 he (by rwa [List.length_set])

theorem length_foldl_set {idx : β → ℕ} {val : β → α} :
    ∀ {es : List β} {l : List α}, (es.foldl (fun l e => l.set (idx e) (val e)) l).length = l.length
  | [], _ => rfl
  | e :: es, l => by rw [List.foldl_cons, length_foldl_set, List.length_set]

/-- Where all keys are different, a table filled from pairs holds exactly the pairs. -/
theorem foldl_update_eq_some [DecidableEq κ] {k : κ} {v : α} :
    ∀ {ps : List (κ × α)} {m : κ → Option α}, (ps.map Prod.fst).Nodup →
      (∀ p ∈ ps, m p.1 = none) →
      (ps.foldl (fun (m : κ → Option α) p => Function.update m p.1 (some p.2)) m k = some v ↔
        (k, v) ∈ ps ∨ m k = some v)
  | [], m, _, _ => by simp
  | p :: ps, m, hnd, hm => by
    rw [List.map_cons, List.nodup_cons] at hnd
    have hne : ∀ q ∈ ps, q.1 ≠ p.1 := fun q hq h => hnd.1 (h ▸ List.mem_map_of_mem hq)
    rw [List.foldl_cons, foldl_update_eq_some hnd.2 fun q hq => by
      rw [Function.update_of_ne (hne q hq)]; exact hm q (List.mem_cons_of_mem _ hq)]
    by_cases hk : k = p.1
    · subst hk
      have hnone := hm p (List.mem_cons_self ..)
      have hps : (p.1, v) ∉ ps := fun h => hne _ h rfl
      simp [hps, hnone, Prod.ext_iff, eq_comm]
    · have hp : (k, v) ≠ p := fun h => hk (congrArg Prod.fst h)
      simp [Function.update_of_ne hk, hp]

end Writes

/-! ### The set of ids -/

section Ids

variable {n a : ℕ} {l ids : List ℕ} {es : List RegionInfo}

theorem mem_insertId : ∀ {l : List ℕ}, a ∈ insertId n l ↔ a = n ∨ a ∈ l
  | [] => by simp [insertId]
  | b :: l => by
    rw [insertId]
    split_ifs with h₁ h₂
    · simp
    · simp [h₂]
    · simp only [List.mem_cons, mem_insertId (l := l)]
      tauto

theorem pairwise_insertId : ∀ {l : List ℕ}, l.Pairwise (· < ·) → (insertId n l).Pairwise (· < ·)
  | [], _ => by simp [insertId]
  | b :: l, h => by
    rw [List.pairwise_cons] at h
    rw [insertId]
    split_ifs with h₁ h₂
    · refine List.pairwise_cons.mpr ⟨fun c hc => ?_, List.pairwise_cons.mpr h⟩
      rcases List.mem_cons.mp hc with rfl | hc
      · exact h₁
      · exact h₁.trans (h.1 c hc)
    · exact List.pairwise_cons.mpr h
    · refine List.pairwise_cons.mpr ⟨fun c hc => ?_, pairwise_insertId h.2⟩
      rcases mem_insertId.mp hc with rfl | hc
      · omega
      · exact h.1 c hc

/-- What the loop has collected: the ids so far, in order, each once. -/
structure Collected (es : List RegionInfo) (ids : List ℕ) : Prop where
  sorted : ids.Pairwise (· < ·)
  mem : ∀ n, n ∈ ids ↔ ∃ e ∈ es, e.nodeId.toNat = n

theorem Collected.unique (h : Collected es ids) {ids' : List ℕ} (h' : Collected es ids') :
    ids = ids' :=
  h.sorted.eq_of_mem_iff h'.sorted fun n => (h.mem n).trans (h'.mem n).symm

theorem Collected.perm {es' : List RegionInfo} (h : Collected es ids) (hp : es'.Perm es) :
    Collected es' ids :=
  ⟨h.sorted, fun n => (h.mem n).trans (by simp only [hp.mem_iff])⟩

theorem Collected.nodup (h : Collected es ids) : ids.Nodup := h.sorted.imp fun h => ne_of_lt h

theorem collectIds_concat {e : RegionInfo} :
    collectIds (es ++ [e]) = (collectIds es).bind fun ids =>
      if e.nodeId.toNat ≥ maxNodesLimit then none else some (insertId e.nodeId.toNat ids) := by
  simp [collectIds, List.foldlM_append]

theorem Collected.concat (h : Collected es ids) (e : RegionInfo) :
    Collected (es ++ [e]) (insertId e.nodeId.toNat ids) := by
  refine ⟨pairwise_insertId h.sorted, fun n => ?_⟩
  simp only [mem_insertId, h.mem, List.mem_append, List.mem_singleton]
  grind

theorem collected_of_collectIds (h : collectIds es = some ids) :
    (∀ e ∈ es, e.nodeId.toNat < maxNodesLimit) ∧ Collected es ids := by
  induction es using List.reverseRecOn generalizing ids with
  | nil =>
    cases h
    exact ⟨by simp, .nil, by simp⟩
  | append_singleton es e ih =>
    rw [collectIds_concat] at h
    obtain ⟨ids', hids', h⟩ := Option.bind_eq_some_iff.mp h
    obtain ⟨hlt, hcol⟩ := ih hids'
    split_ifs at h with he
    cases h
    refine ⟨fun e' he' => ?_, hcol.concat e⟩
    rcases List.mem_append.mp he' with he' | he'
    · exact hlt e' he'
    · rw [List.mem_singleton.mp he']
      omega

theorem exists_collectIds (h : ∀ e ∈ es, e.nodeId.toNat < maxNodesLimit) :
    ∃ ids, collectIds es = some ids := by
  induction es using List.reverseRecOn with
  | nil => exact ⟨[], rfl⟩
  | append_singleton es e ih =>
    obtain ⟨ids, hids⟩ := ih fun e' he' => h e' (List.mem_append_left _ he')
    have he := h e (List.mem_append_right _ (List.mem_singleton_self e))
    exact ⟨insertId e.nodeId.toNat ids, by rw [collectIds_concat, hids]; simp [he]⟩

/-- The set of ids does not depend on the order of the entries, nor does its acceptance. -/
theorem collectIds_perm {es' : List RegionInfo} (hp : es'.Perm es) (h : collectIds es = some ids) :
    collectIds es' = some ids := by
  obtain ⟨hlt, hcol⟩ := collected_of_collectIds h
  obtain ⟨ids', hids'⟩ := exists_collectIds fun e he => hlt e (hp.mem_iff.mp he)
  rw [hids', (collected_of_collectIds hids').2.unique (hcol.perm hp)]

end Ids

/-! ### What the steps build -/

section Build

variable {cpuNum cpuNum' : ℕ} {area area' : Area} {es es' : List RegionInfo} {conf conf' : CommConf}
  {t t' : Transport} {ids : List ℕ} {n i : ℕ}

theorem indexIds_eq_some (h : ids.Nodup) : indexIds ids n = some i ↔ ids[i]? = some n := by
  rw [indexIds, foldl_update_eq_some (by rwa [List.zipIdx_map_fst]) fun _ _ => rfl]
  simp [List.mem_zipIdx_iff_getElem?]

theorem setupConfigAndValidate_perm (hp : es'.Perm es) :
    setupConfigAndValidate cpuNum (some area) (some ⟨some es'⟩) (some conf) t
      = setupConfigAndValidate cpuNum (some area) (some ⟨some es⟩) (some conf) t := by
  cases hptr : area.ptr with
  | none => simp only [setupConfigAndValidate, hptr]
  | some ptr => simp only [setupConfigAndValidate, hptr, hp.length_eq, hp.any_eq]

theorem buildNodeMapping_ok (h : (buildNodeMapping es t).1 = 0) :
    ∃ ids, collectIds es = some ids ∧
      (buildNodeMapping es t).2 = { t with nodeIdToIdx := indexIds ids, idxToNodeId := ids } := by
  cases hids : collectIds es with
  | none => simp [buildNodeMapping, hids, eInval] at h
  | some ids =>
    have hsort : ids.insertionSort (· ≤ ·) = ids :=
      ((collected_of_collectIds hids).2.sorted.imp fun h => le_of_lt h).insertionSort_eq
    refine ⟨ids, rfl, ?_⟩
    simp only [buildNodeMapping, hids, hsort] at h ⊢
    split_ifs at h ⊢
    · cases h
    · cases h
    · rfl

theorem buildNodeMapping_perm (hp : es'.Perm es) (h : (buildNodeMapping es t).1 = 0) :
    buildNodeMapping es' t = buildNodeMapping es t := by
  obtain ⟨ids, hids, -⟩ := buildNodeMapping_ok h
  simp only [buildNodeMapping, hids, collectIds_perm hp hids]

/-- The region tables are written at the indices of the entries' ids. -/
theorem foldl_setRegion {idx : RegionInfo → ℕ} :
    ∀ {es : List RegionInfo} {t : Transport}, (∀ e ∈ es, t.nodeIdToIdx e.nodeId.toNat = some (idx e)) →
      es.foldl setRegion t = { t with
        regionBases := es.foldl (fun l e => l.set (idx e) e.region.ptr) t.regionBases
        regionSizes := es.foldl (fun l e => l.set (idx e) e.region.size) t.regionSizes }
  | [], _, _ => rfl
  | e :: es, t, h => by
    have he : setRegion t e = { t with
        regionBases := t.regionBases.set (idx e) e.region.ptr
        regionSizes := t.regionSizes.set (idx e) e.region.size } := by
      simp [setRegion, getCompactIndex, h e (List.mem_cons_self ..)]
    rw [List.foldl_cons, he]
    exact foldl_setRegion fun e' he' => h e' (List.mem_cons_of_mem _ he')

/-- The tables a node has once `init` is past them. -/
structure Tables (es : List RegionInfo) (t : Transport) : Prop where
  ids : Collected es t.idxToNodeId
  index : t.nodeIdToIdx = indexIds t.idxToNodeId
  bases : t.regionBases = es.foldl (fun l e => l.set (t.idxToNodeId.idxOf e.nodeId.toNat) e.region.ptr)
    (List.replicate t.idxToNodeId.length none)
  sizes : t.regionSizes = es.foldl (fun l e => l.set (t.idxToNodeId.idxOf e.nodeId.toNat) e.region.size)
    (List.replicate t.idxToNodeId.length 0)

/-- The configuration of the node after the first step. -/
def configured (cpuNum : ℕ) (area : Area) (es : List RegionInfo) (conf : CommConf) (t : Transport) :
    ℤ × Transport :=
  setupConfigAndValidate cpuNum (some area) (some ⟨some es⟩) (some conf) t

theorem buildTables_eq_zero :
    (buildTables cpuNum area es conf t).1 = 0 ↔ (configured cpuNum area es conf t).1 = 0 ∧
      (buildNodeMapping es (configured cpuNum area es conf t).2).1 = 0 := by
  simp only [buildTables, configured]
  split_ifs with h₁ h₂
  · simp [h₁]
  · simp [h₂]
  · simp [not_not.mp h₁, not_not.mp h₂, buildRegionBases]

/-- What the three steps leave when all of them succeed. -/
theorem buildTables_snd (h : (buildTables cpuNum area es conf t).1 = 0) : ∃ ids, Collected es ids ∧
    (buildRegionBases es (buildNodeMapping es (configured cpuNum area es conf t).2).2).2
      = (buildTables cpuNum area es conf t).2 ∧
    (buildNodeMapping es (configured cpuNum area es conf t).2).2
      = { (configured cpuNum area es conf t).2 with nodeIdToIdx := indexIds ids, idxToNodeId := ids } ∧
    ∀ e ∈ es, indexIds ids e.nodeId.toNat = some (ids.idxOf e.nodeId.toNat) := by
  obtain ⟨h₁, h₂⟩ := buildTables_eq_zero.mp h
  obtain ⟨ids, hids, ht⟩ := buildNodeMapping_ok h₂
  have hcol := (collected_of_collectIds hids).2
  refine ⟨ids, hcol, ?_, ht, fun e he => ?_⟩
  · rw [configured] at h₁ h₂
    simp [buildTables, configured, h₁, h₂]
  · have hmem : e.nodeId.toNat ∈ ids := (hcol.mem _).mpr ⟨e, he, rfl⟩
    rw [indexIds_eq_some hcol.nodup, List.getElem?_idxOf hmem]

theorem buildTables_ok (h : (buildTables cpuNum area es conf t).1 = 0) :
    Tables es (buildTables cpuNum area es conf t).2 := by
  obtain ⟨ids, hcol, hres, ht, hidx⟩ := buildTables_snd h
  rw [← hres, ht]
  simp only [buildRegionBases]
  rw [foldl_setRegion hidx]
  exact ⟨hcol, rfl, rfl, rfl⟩

/-- The node keeps its configuration, and its own region is the one of its index. -/
theorem buildTables_own (h : (buildTables cpuNum area es conf t).1 = 0) :
    let u := (buildTables cpuNum area es conf t).2
    u.conf = (configured cpuNum area es conf t).2.conf ∧
      u.ringRegionPtr
        = (u.regionBases[(getCompactIndex u u.conf.currentNodeId.toNat).toNat]?).join := by
  obtain ⟨ids, -, hres, ht, hidx⟩ := buildTables_snd h
  rw [← hres, ht]
  simp only [buildRegionBases]
  rw [foldl_setRegion hidx]
  exact ⟨rfl, rfl⟩

theorem buildTables_perm (hp : es'.Perm es) (h : (buildTables cpuNum area es conf t).1 = 0) :
    (buildTables cpuNum area es' conf t).1 = 0 := by
  obtain ⟨h₁, h₂⟩ := buildTables_eq_zero.mp h
  have hconf : configured cpuNum area es' conf t = configured cpuNum area es conf t :=
    setupConfigAndValidate_perm hp
  rw [buildTables_eq_zero, hconf, buildNodeMapping_perm hp h₂]
  exact ⟨h₁, h₂⟩

/-! ### Agreement -/

/-- The four tables are the same. -/
structure SameTables (t t' : Transport) : Prop where
  idxToNodeId : t.idxToNodeId = t'.idxToNodeId
  nodeIdToIdx : t.nodeIdToIdx = t'.nodeIdToIdx
  regionBases : t.regionBases = t'.regionBases
  regionSizes : t.regionSizes = t'.regionSizes

theorem Tables.inverse (h : Tables es t) : t.nodeIdToIdx n = some i ↔ t.idxToNodeId[i]? = some n := by
  rw [h.index, indexIds_eq_some h.ids.nodup]

/-- The ids of the map, one for each entry. -/
def nodeIds (es : List RegionInfo) : List ℕ := es.map (·.nodeId.toNat)

/-- Where no node has two entries, the entries write to different places. -/
theorem Tables.nodup (h : Tables es t) (hnd : (nodeIds es).Nodup) :
    (es.map fun e => t.idxToNodeId.idxOf e.nodeId.toNat).Nodup := by
  have hmap : (es.map fun e => t.idxToNodeId.idxOf e.nodeId.toNat)
      = (nodeIds es).map (t.idxToNodeId.idxOf ·) := by
    rw [nodeIds, List.map_map]
    rfl
  rw [hmap]
  refine List.Nodup.map_on (fun a ha b _ hab => ?_) hnd
  obtain ⟨e, he, rfl⟩ := List.mem_map.mp ha
  exact List.idxOf_inj ((h.ids.mem _).mpr ⟨e, he, rfl⟩) |>.mp hab

theorem Tables.region (h : Tables es t) (hnd : (nodeIds es).Nodup) {e : RegionInfo} (he : e ∈ es)
    (hi : t.idxToNodeId[i]? = some e.nodeId.toNat) :
    t.regionBases[i]? = some e.region.ptr ∧ t.regionSizes[i]? = some e.region.size := by
  obtain ⟨hlt, heq⟩ := List.getElem?_eq_some_iff.mp hi
  have hidx : t.idxToNodeId.idxOf e.nodeId.toNat = i := by
    rw [← heq]
    exact h.ids.nodup.idxOf_getElem i hlt
  subst hidx
  rw [h.bases, h.sizes]
  exact ⟨getElem?_foldl_set (h.nodup hnd) he (by rwa [List.length_replicate]),
    getElem?_foldl_set (h.nodup hnd) he (by rwa [List.length_replicate])⟩

/-- Two maps with the same entries in different orders give the same region tables. -/
theorem Tables.same (h : Tables es t) (h' : Tables es' t') (hp : es'.Perm es)
    (hnd : (nodeIds es).Nodup) : SameTables t t' := by
  have hids : t.idxToNodeId = t'.idxToNodeId := h.ids.unique (h'.ids.perm hp.symm)
  have hnd' : (nodeIds es').Nodup := (hp.map _).nodup_iff.mpr hnd
  have hboth : ∀ i : ℕ, t.regionBases[i]? = t'.regionBases[i]? ∧ t.regionSizes[i]? = t'.regionSizes[i]? := by
    intro i
    by_cases hi : i < t.idxToNodeId.length
    · obtain ⟨e, he, hn⟩ := (h.ids.mem _).mp (List.getElem_mem hi)
      have hi : t.idxToNodeId[i]? = some e.nodeId.toNat := by rw [hn, List.getElem?_eq_getElem hi]
      obtain ⟨hb, hs⟩ := h.region hnd he hi
      obtain ⟨hb', hs'⟩ := h'.region hnd' (hp.mem_iff.mpr he) (hids ▸ hi)
      exact ⟨hb.trans hb'.symm, hs.trans hs'.symm⟩
    · rw [h.bases, h.sizes, h'.bases, h'.sizes]
      have hi' : t'.idxToNodeId.length ≤ i := hids ▸ not_lt.mp hi
      constructor <;>
        rw [List.getElem?_eq_none (by rw [length_foldl_set, List.length_replicate]; omega),
          List.getElem?_eq_none (by rw [length_foldl_set, List.length_replicate]; exact hi')]
  exact ⟨hids, by rw [h.index, h'.index, hids], List.ext_getElem? fun i => (hboth i).1,
    List.ext_getElem? fun i => (hboth i).2⟩

/-- Base and size of the region in which a node looks for the rings of node `n`. -/
def regionOf (t : Transport) (n : ℕ) : Option ℕ × ℕ :=
  let idx := (getCompactIndex t n).toNat
  ((t.regionBases[idx]?).join, (t.regionSizes[idx]?).getD 0)

/-- What a cluster needs of the tables `u` that one of its nodes built from `es`. -/
structure Agreed (cpuNum : ℕ) (area : Area) (es : List RegionInfo) (conf : CommConf) (t u : Transport) :
    Prop where
  sorted : u.idxToNodeId.Pairwise (· < ·)
  ids : ∀ n, n ∈ u.idxToNodeId ↔ n ∈ nodeIds es
  inverse : ∀ n i : ℕ, u.nodeIdToIdx n = some i ↔ u.idxToNodeId[i]? = some n
  regions : ∀ i n : ℕ, u.idxToNodeId[i]? = some n → ∃ (k : ℕ) (e : RegionInfo), es[k]? = some e ∧
    e.nodeId.toNat = n ∧ (∀ (k' : ℕ) (e' : RegionInfo), es[k']? = some e' → e'.nodeId.toNat = n → k' = k) ∧
    u.regionBases[i]? = some e.region.ptr ∧ u.regionSizes[i]? = some e.region.size
  accepted : ∀ es', es'.Perm es → (buildTables cpuNum area es' conf t).1 = 0
  same : ∀ es', es'.Perm es → ∀ cpuNum' area' conf' t',
    (buildTables cpuNum' area' es' conf' t').1 = 0 →
      let u' := (buildTables cpuNum' area' es' conf' t').2
      SameTables u u' ∧ ∀ n, getCompactIndex u n = getCompactIndex u' n ∧ regionOf u n = regionOf u' n

/-- The nodes of a cluster agree on the layout exactly if no node has two entries in the map. -/
theorem layout_agreed_iff (h : (buildTables cpuNum area es conf t).1 = 0) :
    Agreed cpuNum area es conf t (buildTables cpuNum area es conf t).2 ↔ (nodeIds es).Nodup := by
  have ht := buildTables_ok h
  constructor
  · intro hag
    rw [List.nodup_iff_getElem?_ne_getElem?]
    intro k k' hlt hk' heq
    obtain ⟨e', he'⟩ : ∃ e', es[k']? = some e' := by
      rw [nodeIds, List.length_map] at hk'
      exact ⟨_, List.getElem?_eq_getElem hk'⟩
    rw [nodeIds, List.getElem?_map, List.getElem?_map, he', Option.map_some] at heq
    obtain ⟨e, he, hn⟩ := Option.map_eq_some_iff.mp heq
    obtain ⟨i, hi⟩ := List.getElem?_of_mem
      ((hag.ids e'.nodeId.toNat).mpr (List.mem_map_of_mem (List.mem_of_getElem? he')))
    obtain ⟨k₀, _, -, -, huniq, -⟩ := hag.regions i _ hi
    have := (huniq k e he hn).trans (huniq k' e' he' rfl).symm
    omega
  · intro hnd
    refine ⟨ht.ids.sorted, fun n => ?_, fun n i => ht.inverse, fun i n hi => ?_, fun es' hp =>
      buildTables_perm hp h, fun es' hp cpuNum' area' conf' t' h' => ?_⟩
    · rw [ht.ids.mem, nodeIds, List.mem_map]
    · obtain ⟨e, he, hn⟩ := (ht.ids.mem n).mp (List.mem_of_getElem? hi)
      subst hn
      obtain ⟨k, hk⟩ := List.getElem?_of_mem he
      refine ⟨k, e, hk, rfl, fun k' e' hk' hn' => ?_, ht.region hnd he hi⟩
      have hlt : k' < (nodeIds es).length := by
        rw [nodeIds, List.length_map]
        exact (List.getElem?_eq_some_iff.mp hk').1
      rw [← List.getElem?_inj hlt hnd, nodeIds, List.getElem?_map, List.getElem?_map, hk, hk',
        Option.map_some, Option.map_some, hn']
    · have hsame := ht.same (buildTables_ok h') hp hnd
      refine ⟨hsame, fun n => ?_⟩
      simp only [regionOf, getCompactIndex, hsame.nodeIdToIdx, hsame.regionBases, hsame.regionSizes,
        and_self]

end Build

/-! ### Fixed maps -/

def someArea : Area := ⟨2048, some 4096⟩

/-- The configuration of node 1 in a cluster of `count` nodes. -/
def someConf (count : UInt8) : CommConf := ⟨-1, count, 1, 1, some []⟩

def blank : Transport := ⟨-1, none, someConf 0, fun _ => none, [], [], [], none⟩

theorem layout_agreed_two :
    (buildTables 1 someArea [⟨⟨64, some 1⟩, 7⟩, ⟨⟨32, some 2⟩, 1⟩] (someConf 2) blank).1 = 0 ∧
      Agreed 1 someArea [⟨⟨64, some 1⟩, 7⟩, ⟨⟨32, some 2⟩, 1⟩] (someConf 2) blank
        (buildTables 1 someArea [⟨⟨64, some 1⟩, 7⟩, ⟨⟨32, some 2⟩, 1⟩] (someConf 2) blank).2 :=
  ⟨by decide, (layout_agreed_iff (by decide)).mpr (by decide)⟩

/-- A map with two entries for node 1 is accepted, and the order of the two decides which region
    the cluster looks for its rings in. -/
theorem layout_violated :
    let es : List RegionInfo := [⟨⟨64, some 1⟩, 1⟩, ⟨⟨32, some 2⟩, 1⟩]
    let u := buildTables 1 someArea es (someConf 1) blank
    let u' := buildTables 1 someArea es.reverse (someConf 1) blank
    u.1 = 0 ∧ u'.1 = 0 ∧ u.2.regionBases = [some 2] ∧ u'.2.regionBases = [some 1] ∧
      u.2.regionSizes = [32] ∧ u'.2.regionSizes = [64] := by
  decide

end Layout

end UbsAtomic
