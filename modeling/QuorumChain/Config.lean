import QuorumChain.Clock

/-!
Settings of a validator and of the pace at which it builds blocks.
-/

namespace QuorumChain

structure Config where
  /-- how often a validator looks at what to do next -/
  tickInterval : Duration := .ofMillis 50
  /-- the own status is told again after this time even if it is the same -/
  statusResendInterval : Duration := .ofMillis 1000
  /-- no new height or round for this long starts a revolt -/
  revoltTimeout : Duration := .ofMillis 10000
  /-- how long to wait before asking peers for the same thing again -/
  intentRetryTimeout : Duration := .ofMillis 1000
  /-- the most steps in which an intent is derived anew -/
  recomputeMaxIterations : UInt64 := 1000
  /-- how long to wait for work under way when stopping -/
  dbStopTimeout : Duration := .ofMillis 1000
deriving DecidableEq

structure PacingConfig where
  /-- a block is built after this time even if it is empty -/
  maxBlockTime : Duration := .ofMillis 30000
  /-- so many waiting transactions are reason enough for a block -/
  maxBlockTransactions : UInt64 := 100
  /-- the longest that a transaction waits for a block -/
  maxTxDelay : Duration := .ofMillis 1000
  /-- no block sooner than this after the last one -/
  minInterBlockInterval : Duration := .ofMillis 25
deriving DecidableEq

end QuorumChain
