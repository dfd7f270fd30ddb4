import Posterior.Value.Text

/-!
# Events

What happens while programs run is reported by events. An event says what happened; its level,
wording and fields follow from that.

## Main definitions

* `Event` — the events
* `Event.record` — how an event is reported
* `Event.shownAt` — whether an event is severe enough for a level
* `Logged` — a result together with the events on the way to it
-/

namespace Posterior

/-- How severe an event is. -/
inductive Level where
  /-- Single steps. -/
  | trace
  /-- What a developer follows. -/
  | debug
  /-- What a user asked to see. -/
  | info
  /-- What looks wrong. -/
  | warn
  deriving DecidableEq, Repr

/-- Severity as a number. -/
def Level.rank : Level → Nat
  | trace => 0
  | debug => 1
  | info => 2
  | warn => 3

/-- The name of a level. -/
def Level.name : Level → String
  | trace => "trace"
  | debug => "debug"
  | info => "info"
  | warn => "warn"

/-- What happened around one effect, or at the ends of a run, as a tracing layer reports it. -/
inductive Observation (X : Type) where
  /-- A strategy starts. -/
  | started (strategy : String)
  /-- A choice is about to be made. -/
  | choosing (distribution : String) (params : Nat)
  /-- A choice was made. -/
  | chosen (distribution : String) (value : Value)
  /-- A choice ended the run. -/
  | choiceHalted (distribution : String)
  /-- A choice was rejected. -/
  | choiceFailed (distribution : String) (error : Failure)
  /-- A constraint is about to be applied. -/
  | weighting (logWeight : X)
  /-- A constraint was rejected. -/
  | weightFailed (logWeight : X) (error : Failure)
  /-- A path is about to end. -/
  | exiting (value : Value)
  /-- The end of a path was rejected. -/
  | exitFailed (error : Failure)
  /-- A strategy gave its result. -/
  | finished (distribution : String)
  /-- A strategy failed to give a result. -/
  | finishFailed (error : Failure)

/-- What happened. -/
inductive Event (X : Type) where
  /-- A program displayed a value. -/
  | displayed (value : Value)
  /-- An effect was forwarded to a handler. -/
  | dispatched (handler : String) (effect : Effect)
  /-- A continuation is resumed. -/
  | resumed (value : Value)
  /-- A run came to its end after that many effects. -/
  | halted (dispatched : Nat)
  /-- A handler was installed. -/
  | installed (handler : String) (depth : Nat)
  /-- The handler before was restored. -/
  | restored (handler : String) (depth : Nat)
  /-- A scope was released at another depth than its own. -/
  | outOfOrder (handler : String) (expected actual : Nat)
  /-- An inference failed while its program ran. -/
  | aborted (strategy : String) (error : Failure)
  /-- An inference asked its strategy for the result. -/
  | concluded (strategy : String)
  /-- A search split at a choice. -/
  | forked (distribution : String) (alternatives : Nat) (score : X)
  /-- A search weighted its path. -/
  | weighted (logWeight score : X)
  /-- A search finished a path. -/
  | pathExited (value : Value) (score : X)
  /-- A search has no alternatives left. -/
  | exhausted (paths forks : Nat)
  /-- A search normalized its marginal, which may be reported to the user. -/
  | enumerated (paths values : Nat) (reported : Bool)
  /-- One line of the marginal reported to the user. -/
  | listed (value : Value) (probability : X)
  /-- A choice was sampled. -/
  | sampled (distribution : String) (value : Value)
  /-- A sampled program ended. -/
  | programExited (value : Value) (draws : Nat)
  /-- A tracing layer observed something. -/
  | observed (tag : String) (observation : Observation X)

/-- The content of a field of a report. -/
inductive Field (X : Type) where
  /-- A text. -/
  | text (s : String)
  /-- A count. -/
  | count (n : Nat)
  /-- A mass or a log-mass. -/
  | scalar (x : X)

/-- How an event is reported. -/
structure Record (X : Type) where
  /-- The severity. -/
  level : Level
  /-- What happened, in words. -/
  message : String
  /-- The particulars, by name. -/
  fields : List (String × Field X)

/-- How a tracing layer's observation is reported, but for its tag. -/
def Observation.record {X : Type} : Observation X → Record X
  | started strategy => ⟨.debug, "begin", [("strategy", .text strategy)]⟩
  | choosing distribution params =>
    ⟨.trace, "draw: start", [("distribution", .text distribution), ("params", .count params)]⟩
  | chosen distribution value =>
    ⟨.debug, "draw: resumed", [("distribution", .text distribution), ("value", .text value.text)]⟩
  | choiceHalted distribution => ⟨.debug, "draw: halted", [("distribution", .text distribution)]⟩
  | choiceFailed distribution error =>
    ⟨.warn, "draw: failed", [("distribution", .text distribution), ("error", .text error.message)]⟩
  | weighting logWeight => ⟨.debug, "weight", [("log_weight", .scalar logWeight)]⟩
  | weightFailed logWeight error =>
    ⟨.warn, "weight: failed",
      [("log_weight", .scalar logWeight), ("error", .text error.message)]⟩
  | exiting value => ⟨.debug, "exit", [("value", .text value.text)]⟩
  | exitFailed error => ⟨.warn, "exit: failed", [("error", .text error.message)]⟩
  | finished distribution => ⟨.debug, "finish", [("distribution", .text distribution)]⟩
  | finishFailed error => ⟨.warn, "finish: failed", [("error", .text error.message)]⟩

namespace Event

variable {X : Type}

/-- How an event is reported. -/
def record : Event X → Record X
  | displayed value => ⟨.info, "", [("value", .text value.text)]⟩
  | dispatched handler effect =>
    ⟨.trace, "dispatch", [("handler", .text handler), ("effect", .text effect.name)]⟩
  | resumed value => ⟨.trace, "resume", [("value", .text value.text)]⟩
  | halted n => ⟨.debug, "driver halted", [("dispatched", .count n)]⟩
  | installed handler depth =>
    ⟨.debug, "installed handler", [("handler", .text handler), ("depth", .count depth)]⟩
  | restored handler depth =>
    ⟨.debug, "restored previous handler", [("handler", .text handler), ("depth", .count depth)]⟩
  | outOfOrder handler expected actual =>
    ⟨.warn, "handler scopes released out of order",
      [("handler", .text handler), ("expected", .count expected), ("actual", .count actual)]⟩
  | aborted strategy error =>
    ⟨.warn, "inference aborted", [("strategy", .text strategy), ("error", .text error.message)]⟩
  | concluded strategy => ⟨.debug, "inference finished", [("strategy", .text strategy)]⟩
  | forked distribution alternatives score =>
    ⟨.trace, "fork", [("distribution", .text distribution), ("alternatives", .count alternatives),
      ("score", .scalar score)]⟩
  | weighted logWeight score =>
    ⟨.trace, "weight", [("log_weight", .scalar logWeight), ("score", .scalar score)]⟩
  | pathExited value score =>
    ⟨.trace, "path exited", [("value", .text value.text), ("score", .scalar score)]⟩
  | exhausted paths forks =>
    ⟨.debug, "search exhausted", [("paths", .count paths), ("forks", .count forks)]⟩
  | enumerated paths values reported =>
    ⟨if reported then .info else .debug, "enumerated distribution",
      [("paths", .count paths), ("values", .count values)]⟩
  | listed value probability =>
    ⟨.info, "marginal", [("value", .text value.text), ("probability", .scalar probability)]⟩
  | sampled distribution value =>
    ⟨.trace, "sampled", [("distribution", .text distribution), ("value", .text value.text)]⟩
  | programExited value draws =>
    ⟨.trace, "program exited", [("value", .text value.text), ("draws", .count draws)]⟩
  | observed tag observation =>
    let r := observation.record
    ⟨r.level, r.message, ("prefix", .text tag) :: r.fields⟩

/-- Whether an event is at least as severe as a level. -/
def shownAt (level : Level) (e : Event X) : Bool := level.rank ≤ e.record.level.rank

/-- Whether an event is addressed to the reader of a program's output. -/
def isDisplay : Event X → Bool
  | displayed _ => true
  | _ => false

end Event

/-- A result together with the events on the way to it. -/
structure Logged (X α : Type) where
  /-- The result. -/
  value : α
  /-- The events, in order. -/
  events : List (Event X)

namespace Logged

variable {X α β : Type}

/-- Reports an event. -/
def report (e : Event X) : Logged X Unit := ⟨(), [e]⟩

instance : Monad (Logged X) where
  pure a := ⟨a, []⟩
  bind m f := ⟨(f m.value).value, m.events ++ (f m.value).events⟩

@[simp] theorem pure_value (a : α) : (pure a : Logged X α).value = a := rfl

@[simp] theorem bind_value (m : Logged X α) (f : α → Logged X β) :
    (m >>= f).value = (f m.value).value := rfl

@[simp] theorem pure_events (a : α) : (pure a : Logged X α).events = [] := rfl

@[simp] theorem bind_events (m : Logged X α) (f : α → Logged X β) :
    (m >>= f).events = m.events ++ (f m.value).events := rfl

end Logged

end Posterior
