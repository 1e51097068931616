import UbsAtomic.Conc.Machine
import UbsAtomic.Ring.Transport

/-! The congestion threshold of a ring and its copies (`set_congestion_threshold`).

        consumer       threshold := t ──▶ version++ ──▶ read both, FLOW_CONFIG_UPDATE (t, v)
        populate       read threshold, store it ──▶ read version, store it
        refresh        read version ──▶ read threshold ──▶ store threshold ──▶ store version
        update         (under the unique lock) newer than the copy? store threshold ──▶ store version

    Threshold and version are two variables, and so are their copies on every producer node. -/

namespace UbsAtomic

open Conc Conc.Prog

namespace Ring

namespace FlowConfig

def mailAt (n : ℕ) : Place Mem (List FlowConfigUpdateMessage) :=
  ⟨fun s => s.mail n, fun v s => { s with mail := Function.update s.mail n v }⟩

variable (cf : Conf)

/-! ### A producer node -/

/-- `update_cached_congestion_threshold`. -/
def updateCachedCongestionThreshold (n : ℕ) (m : FlowConfigUpdateMessage) : Call Unit := do
  lockUnique n
  let cachedVersion ← load (cachedThresholdVersionAt n)
  if m.version ≤ cachedVersion then
    unlockUnique n
  else
    storeAt (.fillThreshold n) (cachedThresholdAt n) m.threshold
    storeAt (.fillVersion n) (cachedThresholdVersionAt n) m.version
    unlockUnique n

/-- Some message arrives at node `n`: the choice says which. -/
def receive (n : ℕ) : Call FlowConfigUpdateMessage :=
  .act .step (fun s c => (s.mail n)[c]?.map fun m =>
    ((mailAt n).set ((s.mail n).eraseIdx c) s, m)) .ret

/-- `on_flow_config_update`. -/
def onFlowConfigUpdate (n : ℕ) : Call Unit := do
  let m ← receive n
  updateCachedCongestionThreshold n m

/-! ### The consumer node -/

/-- `configure_congestion_threshold`. -/
def configureCongestionThreshold (percent : ℕ) : Call ℤ := do
  if percent > 100 then
    return eInval
  storeAt .setThreshold thresholdAt (calculateFlowThreshold cf.capacity percent)
  let _ ← fetch thresholdVersionAt (· + 1)
  let used ← approximateUsed cf
  let _ ← sampleFlowState cf used
  return ubCommOk

/-- `broadcast_flow_config_update`; a send may fail. -/
def broadcastFlowConfigUpdate (m : FlowConfigUpdateMessage) : List ℕ → Call Unit
  | [] => return ()
  | n :: ns => do
    let sent ← choose
    if sent ≠ 0 then
      let _ ← fetch (mailAt n) (m :: ·)
      broadcastFlowConfigUpdate m ns
    else
      broadcastFlowConfigUpdate m ns

/-- `set_congestion_threshold`. The two reads are arguments of one call, so that their order is the
    compiler's choice. -/
def setCongestionThreshold (percent : ℕ) : Call ℤ := do
  let ret ← configureCongestionThreshold cf percent
  if ret ≠ ubCommOk then
    return ret
  let order ← choose
  if order = 0 then
    let threshold ← load thresholdAt
    let version ← loadAt .readVersion thresholdVersionAt
    broadcastFlowConfigUpdate ⟨version, threshold⟩ (List.range maxNodesLimit)
    return ubCommOk
  else
    let version ← load thresholdVersionAt
    let threshold ← load thresholdAt
    broadcastFlowConfigUpdate ⟨version, threshold⟩ (List.range maxNodesLimit)
    return ubCommOk

/-! ### The parties -/

/-- Threads of the consumer node, and threads of the producer nodes. -/
inductive Party where
  | setter (k : ℕ)
  | producer (n k : ℕ)
  deriving DecidableEq

inductive Op where
  | setCongestionThreshold (percent : ℕ)
  | send (m : Message)
  | onFlowConfigUpdate
  | removeNodeCache

/-- Every thread makes any calls of its node, in any order. -/
def client : Client Party Mem Label Op ℤ Unit where
  code
    | .setter _, .setCongestionThreshold percent => setCongestionThreshold cf percent
    | .producer n k, .send m => send cf n k m
    | .producer n _, .onFlowConfigUpdate => do
      onFlowConfigUpdate n
      return ubCommOk
    | .producer n _, .removeNodeCache => do
      removeNodeCache n
      return ubCommOk
    | _, _ => return eInval
  allowed := fun _ _ _ => true
  start := fun _ _ => ()
  finish := fun _ _ _ => ()

abbrev FlowRun := Config Party Mem Label Op ℤ Unit

def FlowRun.init : FlowRun where
  mem := .init cf
  held := fun _ => ()
  pc := fun _ => none

end FlowConfig

end Ring

end UbsAtomic
