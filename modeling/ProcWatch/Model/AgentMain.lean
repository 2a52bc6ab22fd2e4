import ProcWatch.Model.AgentRequests

/-! # The main loop of `agentd` (`agentd.c`)

The requests of a turn are those that `http_server_tick` hands to `on_request`.
-/

namespace ProcWatch

open CLib

/-! ## Upkeep -/

/-- What `main` does about the database at its start and after a reconnect, up to the flush. -/
def agentSetUp : Agent Unit := do
  let w ← Prog.get
  dbEnsureSchema w.user.schema.val
  dbTryEnableTimescaledb
  dbEnsureDropInactiveJob w.user.schema.val

/-- The upkeep that is due once a second. -/
def agentMaintenance : Agent Unit := do
  let w ← Prog.get
  let wasOffline := !w.online
  let _ ← pwDbBufMaintain replayLine
  let w ← Prog.get
  if w.online && wasOffline then
    dbLabelCacheReset
    agentSetUp
    let _ ← pwDbBufFlush replayLine

/-! ## The loop -/

def serveRequests : List HttpRequest → Agent Unit
  | [] => return ()
  | req :: reqs => do
      let _ ← onRequest req
      serveRequests reqs

/-- The turns of the loop, each with its requests, from `next_maintain` on. -/
def agentLoop : List (List HttpRequest) → ℤ → Agent Unit
  | [], _ => return ()
  | reqs :: turns, nextMaintain => do
      serveRequests reqs
      let now ← ask fun env n => env.now n
      if nextMaintain ≤ now then
        agentMaintenance
        agentLoop turns (now + 1)
      else agentLoop turns nextMaintain

/-- `pw_db_buf_init` and the first flush. -/
def agentStartup : Agent Unit := do
  pwDbBufInit
  let w ← Prog.get
  if w.online then
    agentSetUp
    let _ ← pwDbBufFlush replayLine

/-- `main`, once its arguments are checked; `listens` tells whether `http_server_init` succeeds. -/
def agentMain (listens : Bool) (turns : List (List HttpRequest)) : Agent ℤ := do
  agentStartup
  if !listens then return 1
  else
    let now ← ask fun env n => env.now n
    agentLoop turns (now + 1)
    let _ ← pwDbBufMaintain replayLine
    return 0

end ProcWatch
