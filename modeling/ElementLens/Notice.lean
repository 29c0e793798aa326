/-
Notices.

What happens on the way and does not show in an answer: documents without a
record, imports that could not be read, tokenizers that stopped early, and
problems left out because of the limit.
-/
import ElementLens.Component.Extract
import ElementLens.FileSystem

namespace ElementLens

/-- Something worth a line in a log. -/
inductive Notice where
  | skipped (uri : Uri) (reason : AnalysisError)
  | importSkipped (uri : Uri) (reason : AnalysisError)
  | unreadable (path : Path) (reason : ReadError)
  | stoppedEarly (stop : EarlyStop)
  | capped (uri : Uri) (limit : Nat)
deriving DecidableEq, Repr

/-- The wording of notices. -/
def Notice.message : Notice → String
  | .skipped uri reason => s!"skipped {uri.render}: {reason.message}"
  | .importSkipped uri reason => s!"import {uri.render} not analyzed: {reason.message}"
  | .unreadable path reason => s!"could not read {path.text}: {reason.message}"
  | .stoppedEarly stop =>
    s!"tokenizer stopped early in {stop.uri.render} ({stop.kept} tokens kept): "
      ++ stop.reason.message
  | .capped uri limit => s!"diagnostics for {uri.render} capped at {limit}"

end ElementLens
