import JavaSyntax.Parse.Session

/-!
A job binds one source, its settings and the collector for what parsing it reports. Each parse is a
session of its own, and jobs share nothing.
-/

namespace JavaSyntax

structure Job where
  source : Source
  settings : Settings
  collector : Collector

namespace Job

def create (settings : Settings) (source : Source) : Job :=
  ⟨source, settings, .empty⟩

/-- Runs an entry point in a new session and collects what it reports. -/
def parse {α : Type} (job : Job) (entry : Session → α × Session) : α × Job :=
  let (tree, session) := entry (.start job.settings job.source)
  (tree, { job with collector := job.collector.recordAll session.diagnostics })

/-- Only lexes, which reports the flawed texts. -/
def lexOnly (job : Job) : Job :=
  (job.parse fun session => ((), session)).2

def drain (job : Job) : List Diagnostic × Job :=
  let (held, collector) := job.collector.drain
  (held, { job with collector := collector })

/-- Where the tokens of the source stand. -/
def layout (job : Job) : Layout :=
  .ofItems job.source (lex job.settings.keepDocs job.source.text)

end Job

end JavaSyntax
