import StageTree.Json.Record

/-! The policy of repeated attempts: how many, how long each may take, and how long to wait between
two of them. Delays are milliseconds of 64 bits; arithmetic that would exceed them stops there. -/

namespace StageTree

/-- How the delay grows from one retry to the next. -/
inductive Backoff where
  | exponential
  | linear
  | constant
  deriving DecidableEq, Repr, Inhabited

/-- Which part of a delay is left to chance. -/
inductive Jitter where
  | none
  | full
  | equal
  deriving DecidableEq, Repr, Inhabited

structure RetryPolicy where
  maxAttempts : UInt64 := 3
  attemptTimeoutSecs : UInt64 := 300
  baseDelayMs : UInt64 := 1000
  maxDelayMs : UInt64 := 30000
  backoff : Backoff := .exponential
  jitter : Jitter := .full
  deriving DecidableEq, Repr, Inhabited

def maxWord : UInt64 := 0xFFFFFFFFFFFFFFFF

/-- A product that stops at the largest number. -/
def saturatingMul (a b : UInt64) : UInt64 :=
  if a.toNat * b.toNat < UInt64.size then a * b else maxWord

def saturatingSucc (a : UInt64) : UInt64 := if a = maxWord then a else a + 1

def saturatingPow2 (e : UInt32) : UInt64 := if e < 64 then 1 <<< e.toUInt64 else maxWord

/-- A number that stops at the largest one of 32 bits. -/
def narrow (a : UInt64) : UInt32 := if a.toNat < UInt32.size then a.toUInt32 else 0xFFFFFFFF

/-- The delay with its jitter, `draw` being what chance gives. -/
def Jitter.apply (j : Jitter) (delay : UInt64) (draw : Nat) : UInt64 :=
  match j with
  | none => delay
  | full => if delay = 0 then 0 else (draw % (delay.toNat + 1)).toUInt64
  | equal =>
    let half := delay / 2
    if half = 0 then delay else half + (draw % (half.toNat + 1)).toUInt64

namespace RetryPolicy

/-- The time limit of one attempt, in milliseconds. -/
def timeoutMs (p : RetryPolicy) : Nat := p.attemptTimeoutSecs.toNat * 1000

/-- The number of attempts that a unit gets: at least one. -/
def attempts (p : RetryPolicy) : Nat := max 1 p.maxAttempts.toNat

/-- The delay before a retry without its jitter, the first retry being number 0. -/
def plainDelay (p : RetryPolicy) (retry : UInt64) : UInt64 :=
  match p.backoff with
  | .exponential => min (saturatingMul p.baseDelayMs (saturatingPow2 (narrow retry))) p.maxDelayMs
  | .linear => min (saturatingMul p.baseDelayMs (saturatingSucc retry)) p.maxDelayMs
  | .constant => min p.baseDelayMs p.maxDelayMs

def delay (p : RetryPolicy) (retry : UInt64) (draw : Nat) : UInt64 :=
  p.jitter.apply (p.plainDelay retry) draw

def isRandom (p : RetryPolicy) (retry : UInt64) : Bool :=
  match p.jitter with
  | .none => false
  | .full => p.plainDelay retry ≠ 0
  | .equal => p.plainDelay retry / 2 ≠ 0

end RetryPolicy

/-! ### JSON form -/

open Json (Misfit Record)

namespace Backoff

def name : Backoff → String
  | exponential => "exponential"
  | linear => "linear"
  | constant => "constant"

def ofName? : String → Option Backoff
  | "exponential" => some exponential
  | "linear" => some linear
  | "constant" => some constant
  | _ => none

def inspect : Backoff → String
  | exponential => "Exponential"
  | linear => "Linear"
  | constant => "Constant"

end Backoff

namespace Jitter

def name : Jitter → String
  | none => "none"
  | full => "full"
  | equal => "equal"

def ofName? : String → Option Jitter
  | "none" => some none
  | "full" => some full
  | "equal" => some equal
  | _ => Option.none

def inspect : Jitter → String
  | none => "None"
  | full => "Full"
  | equal => "Equal"

end Jitter

def Json.toWord (j : Json) : Except Misfit UInt64 := (Json.toNat j).map Nat.toUInt64

def Json.ofWord (n : UInt64) : Json := .nat n.toNat

namespace RetryPolicy

def toJson (p : RetryPolicy) : Json :=
  .object [("max_attempts", .ofWord p.maxAttempts), ("attempt_timeout_secs", .ofWord p.attemptTimeoutSecs),
    ("base_delay_ms", .ofWord p.baseDelayMs), ("max_delay_ms", .ofWord p.maxDelayMs),
    ("backoff_strategy", .string p.backoff.name), ("jitter_strategy", .string p.jitter.name)]

def ofJson (origin : Json.Origin) : Json → Except Misfit RetryPolicy :=
  let d : RetryPolicy := {}
  Record.ofJson origin <| mk
    <$> Record.defaulted "max_attempts" d.maxAttempts Json.toWord
    <*> Record.defaulted "attempt_timeout_secs" d.attemptTimeoutSecs Json.toWord
    <*> Record.defaulted "base_delay_ms" d.baseDelayMs Json.toWord
    <*> Record.defaulted "max_delay_ms" d.maxDelayMs Json.toWord
    <*> Record.defaulted "backoff_strategy" d.backoff (Json.toVariant Backoff.ofName? origin)
    <*> Record.defaulted "jitter_strategy" d.jitter (Json.toVariant Jitter.ofName? origin)

def inspect (p : RetryPolicy) : String :=
  "RetryConfig \x7b max_attempts: " ++ toString p.maxAttempts.toNat ++
    ", attempt_timeout_secs: " ++ toString p.attemptTimeoutSecs.toNat ++
    ", base_delay_ms: " ++ toString p.baseDelayMs.toNat ++
    ", max_delay_ms: " ++ toString p.maxDelayMs.toNat ++
    ", backoff_strategy: " ++ p.backoff.inspect ++
    ", jitter_strategy: " ++ p.jitter.inspect ++ " \x7d"

end RetryPolicy

end StageTree
