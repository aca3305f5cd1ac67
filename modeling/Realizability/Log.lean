/-!
# Logs

A logged computation ends in a result or an error and, either way, with the messages that it wrote
before. Forgetting the messages turns it into a plain computation, step by step.
-/

namespace Realizability

inductive Level
  | debug
  | info
  | warning
  deriving DecidableEq, Repr

namespace Level

def name : Level → String
  | debug => "DEBUG"
  | info => "INFO"
  | warning => "WARNING"

def rank : Level → Nat
  | debug => 10
  | info => 20
  | warning => 30

def ofVerbosity? : String → Option Level
  | "vverbose" => some debug
  | "verbose" => some info
  | "quiet" => some warning
  | _ => none

def passes (l threshold : Level) : Bool := threshold.rank ≤ l.rank

end Level

structure Message where
  level : Level
  text : String
  deriving DecidableEq, Repr

def Message.render (m : Message) : String := m.level.name ++ ": " ++ m.text

abbrev debug (text : String) : Message := ⟨.debug, text⟩
abbrev info (text : String) : Message := ⟨.info, text⟩
abbrev warning (text : String) : Message := ⟨.warning, text⟩

structure Logged (ε α : Type) where
  messages : List Message
  outcome : Except ε α

namespace Logged

variable {ε ε' α β : Type}

def bind (x : Logged ε α) (f : α → Logged ε β) : Logged ε β :=
  match x.outcome with
  | .ok a => ⟨x.messages ++ (f a).messages, (f a).outcome⟩
  | .error e => ⟨x.messages, .error e⟩

instance : Monad (Logged ε) where
  pure a := ⟨[], .ok a⟩
  bind := bind

instance : MonadExceptOf ε (Logged ε) where
  throw e := ⟨[], .error e⟩
  tryCatch x f :=
    match x.outcome with
    | .ok _ => x
    | .error e => ⟨x.messages ++ (f e).messages, (f e).outcome⟩

def lift (x : Except ε α) : Logged ε α := ⟨[], x⟩

instance : MonadLift (Except ε) (Logged ε) := ⟨lift⟩

def write (m : Message) : Logged ε Unit := ⟨[m], .ok ()⟩

def writeAll (ms : List Message) : Logged ε Unit := ⟨ms, .ok ()⟩

def mapError (f : ε → ε') (x : Logged ε α) : Logged ε' α := ⟨x.messages, x.outcome.mapError f⟩

/-! ## Forgetting the messages -/

@[simp] theorem outcome_pure (a : α) : (pure a : Logged ε α).outcome = .ok a := rfl

@[simp] theorem outcome_bind (x : Logged ε α) (f : α → Logged ε β) :
    (x >>= f).outcome = x.outcome >>= fun a => (f a).outcome := by
  change (bind x f).outcome = _
  unfold bind
  cases h : x.outcome with
  | ok a => rfl
  | error e => rfl

@[simp] theorem outcome_lift (x : Except ε α) : (lift x).outcome = x := rfl

@[simp] theorem outcome_write (m : Message) : (write m : Logged ε Unit).outcome = .ok () := rfl

@[simp] theorem outcome_writeAll (ms : List Message) :
    (writeAll ms : Logged ε Unit).outcome = .ok () := rfl

end Logged

end Realizability
