import Posterior.Json.Reader
import Posterior.Random.Source
import Posterior.Strategy.Enumeration
import Posterior.Strategy.ForwardSampling

/-!
# Settings of the strategies

The seed of random choices, and whether enumeration reports its result to the user. Both have
defaults. As data, settings are an object in which other fields are ignored but none of the two
may occur twice, or an array that gives them in order.

## Main definitions

* `Settings` — the settings
* `Settings.toData`, `Settings.ofData?` — settings as data
* `Settings.source` — the random source that settings ask for
* `Settings.enumeration`, `Settings.sampling` — the strategies with settings
-/

namespace Posterior

/-- The settings of the strategies. -/
structure Settings where
  /-- The seed of random choices; without one they differ from run to run. -/
  seed : Option UInt64 := none
  /-- Whether enumeration reports the normalized marginal to the user. -/
  reportMarginal : Bool := false
  deriving DecidableEq, Repr

namespace Settings

/-- The written form of settings. -/
def toData (s : Settings) : String :=
  "\x7b" ++ Json.quote "seed" ++ ":" ++ (match s.seed with
    | some w => w.toNat.repr
    | none => "null") ++ "," ++ Json.quote "report_marginal" ++ ":" ++
    (if s.reportMarginal then "true" else "false") ++ "\x7d"

/-- A seed as data: an unsigned word, or null for none. -/
def seedOf? : Json → Option (Option UInt64)
  | .null => some none
  | .number n =>
    match n.toInt? with
    | some i => if 0 ≤ i then some (some (UInt64.ofNat i.toNat)) else none
    | none => none
  | _ => none

/-- A truth value as data. -/
def flagOf? : Json → Option Bool
  | .bool b => some b
  | _ => none

/-- Reads the fields of an object, given what earlier fields have set. -/
def ofFields? (seed : Option (Option UInt64)) (report : Option Bool) :
    List (Option String × Json) → Option Settings
  | [] => some { seed := seed.getD none, reportMarginal := report.getD false }
  | (none, _) :: _ => none
  | (some name, j) :: rest =>
    -- A field that is there twice is refused, one with another name is skipped.
    if name = "seed" then
      match seed, seedOf? j with
      | none, some s => ofFields? (some s) report rest
      | _, _ => none
    else if name = "report_marginal" then
      match report, flagOf? j with
      | none, some b => ofFields? seed (some b) rest
      | _, _ => none
    else ofFields? seed report rest

/-- The settings that a tree stands for. -/
def ofJson? : Json → Option Settings
  | .object fields => ofFields? none none fields
  -- An array gives the fields by position, and may stop early.
  | .array [] => some {}
  | .array [s] => (seedOf? s).map fun seed => { seed := seed }
  | .array [s, r] =>
    match seedOf? s, flagOf? r with
    | some seed, some report => some { seed := seed, reportMarginal := report }
    | _, _ => none
  | _ => none

/-- The settings that a text stands for. -/
def ofData? (s : String) : Option Settings := (Json.parse? s).bind ofJson?

/-- The stream of the seed, or the given source without one. -/
def source (s : Settings) (unseeded : Source) : Source :=
  match s.seed with
  | some seed => .ofSeed seed
  | none => unseeded

variable {X K : Type} [Scalar X]

/-- Enumeration with settings. -/
def enumeration (s : Settings) : Enumeration X K := .fresh s.reportMarginal

/-- Forward sampling with settings. -/
def sampling (s : Settings) (unseeded : Source) : ForwardSampling X K :=
  { source := s.source unseeded }

end Settings

end Posterior
