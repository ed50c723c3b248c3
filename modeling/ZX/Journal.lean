import ZX.Fault

/-!
# Runs that keep a journal

A run ends with a result or with an error, and in both cases it has written a list of entries on
the way. The entries never influence the result: `outcome` maps a composite run to the composite
of the outcomes.
-/
namespace ZX

/-- Levels of detail, the most severe first. -/
inductive Level where
  | error
  | warn
  | info
  | debug
  | trace
deriving DecidableEq, Repr

def Level.rank : Level → Nat
  | .error => 1
  | .warn => 2
  | .info => 3
  | .debug => 4
  | .trace => 5

def Level.label : Level → String
  | .error => "ERROR"
  | .warn => "WARN"
  | .info => "INFO"
  | .debug => "DEBUG"
  | .trace => "TRACE"

structure Entry where
  level : Level
  text : String
deriving DecidableEq, Repr

def Entry.render (e : Entry) : String := e.level.label ++ " " ++ e.text

structure Run (ε α : Type) where
  journal : List Entry
  outcome : Except ε α

namespace Run

variable {ε ε' α β : Type}

def pure (a : α) : Run ε α := ⟨[], .ok a⟩

def bind (x : Run ε α) (f : α → Run ε β) : Run ε β :=
  match x.outcome with
  | .ok a => ⟨x.journal ++ (f a).journal, (f a).outcome⟩
  | .error e => ⟨x.journal, .error e⟩

instance : Monad (Run ε) where
  pure := pure
  bind := bind

instance : MonadExceptOf ε (Run ε) where
  throw e := ⟨[], .error e⟩
  tryCatch x f :=
    match x.outcome with
    | .ok _ => x
    | .error e => ⟨x.journal ++ (f e).journal, (f e).outcome⟩

/-- A computation that writes nothing. -/
def ofExcept (x : Except ε α) : Run ε α := ⟨[], x⟩

instance : MonadLift (Except ε) (Run ε) := ⟨ofExcept⟩

def emit (level : Level) (text : String) : Run ε Unit := ⟨[⟨level, text⟩], .ok ()⟩

/-- The same run with its error renamed. -/
def mapError (f : ε → ε') (x : Run ε α) : Run ε' α := ⟨x.journal, x.outcome.mapError f⟩

@[simp] theorem outcome_pure (a : α) : (Pure.pure a : Run ε α).outcome = .ok a := rfl

@[simp] theorem outcome_bind (x : Run ε α) (f : α → Run ε β) :
    (x >>= f).outcome = x.outcome.bind (fun a => (f a).outcome) := by
  show (bind x f).outcome = _
  unfold bind
  cases x.outcome <;> rfl

@[simp] theorem outcome_map (f : α → β) (x : Run ε α) :
    (f <$> x).outcome = x.outcome.map f := by
  show (bind x (fun a => pure (f a))).outcome = _
  unfold bind
  cases x.outcome <;> rfl

@[simp] theorem outcome_throw (e : ε) : (throw e : Run ε α).outcome = .error e := rfl

@[simp] theorem outcome_ofExcept (x : Except ε α) : (ofExcept x).outcome = x := rfl

@[simp] theorem outcome_liftM (x : Except ε α) : (liftM x : Run ε α).outcome = x := rfl

@[simp] theorem outcome_emit (l : Level) (t : String) : (emit l t : Run ε Unit).outcome = .ok () :=
  rfl

@[simp] theorem outcome_mapError (f : ε → ε') (x : Run ε α) :
    (x.mapError f).outcome = x.outcome.mapError f := rfl

end Run

end ZX
