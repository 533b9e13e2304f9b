import SchemaCodegen.Config.Environment
import SchemaCodegen.Json.Writer
import SchemaCodegen.Output.Markup
import SchemaCodegen.Output.Wrap

/-!
# Output

What a program shows goes to two streams: data to the first, messages about its work to the
second (`Streams`).  A `Manager` decides the format of the data and which messages are shown.

* `Format.resolve` — the format that is used; `auto` stands for the rich format on a terminal
  with colours and the plain one elsewhere.
* `Manager.info`, `warning`, `error`, `debug` — messages.
* `Manager.data`, `json`, `table` — data.

Colours are off when they are unwanted or the environment says so.  With colours on, messages
may hold style tags and are laid out in lines.  How the rich format draws data is not a
matter of this library: it shows nothing of it here.
-/

namespace SchemaCodegen.Output

/-- How data is shown. -/
inductive Format where
  | auto
  | json
  | plain
  | rich
deriving DecidableEq, Repr

namespace Format

/-- The name of a format. -/
def name : Format → String
  | .auto => "auto"
  | .json => "json"
  | .plain => "plain"
  | .rich => "rich"

/-- All formats. -/
def all : List Format := [.auto, .json, .plain, .rich]

/-- The format with a name. -/
def ofName? (name : String) : Option Format := all.find? fun f => f.name == name

/-- A format is found by its name. -/
theorem ofName?_name (f : Format) : ofName? f.name = some f := by
  cases f <;> decide

/-- The format that is used, on a terminal or not. -/
def resolve (terminal coloured : Bool) : Format → Format
  | .auto => if terminal && coloured then .rich else .plain
  | f => f

/-- A resolved format is never `auto`. -/
theorem resolve_ne_auto (terminal coloured : Bool) (f : Format) :
    f.resolve terminal coloured ≠ .auto := by
  unfold resolve
  split
  · split
    · nofun
    · nofun
  · next fixed => exact fixed

end Format

/-- The environment turns colours off. -/
def refusesColour (env : Environment) : Bool :=
  (env.lookup "NO_COLOR").isSome || env.lookup "TERM" == some "dumb"

/-- What is written to the two streams. -/
structure Streams where
  data : String := ""
  messages : String := ""
deriving DecidableEq, Repr

/-- What decides how things are shown. -/
structure Manager where
  format : Format
  coloured : Bool
  quiet : Bool
  verbose : Bool
deriving DecidableEq, Repr

namespace Manager

/-- A manager for a terminal or another stream. -/
def make (terminal : Bool) (env : Environment) (format : Format)
    (noColour quiet verbose : Bool) : Manager :=
  let coloured := !(noColour || refusesColour env)
  ⟨format.resolve terminal coloured, coloured, quiet, verbose⟩

/-- The usual manager. -/
def usual (terminal : Bool) (env : Environment) : Manager :=
  make terminal env .auto false false false

/-! ### Messages -/

/-- The width of a stream that is no terminal. -/
def lineWidth : Nat := 80

/-- A line on the second stream: one text without colours, another with style tags. -/
def message (m : Manager) (plain tagged : String) : Except Failure Streams :=
  if m.coloured then do
    pure { messages := Wrap.wrapped lineWidth (← Markup.visibleText tagged) }
  else .ok { messages := plain ++ "\n" }

/-- A message about the work; a quiet manager shows none. -/
def info (m : Manager) (text : String) : Except Failure Streams :=
  if m.quiet then .ok {} else m.message text text

/-- A warning. -/
def warning (m : Manager) (text : String) : Except Failure Streams :=
  m.message ("Warning: " ++ text) ("[yellow]Warning:[/yellow] " ++ text)

/-- An error. -/
def error (m : Manager) (text : String) : Except Failure Streams :=
  m.message ("Error: " ++ text) ("[bold red]Error:[/bold red] " ++ text)

/-- A detail, which only a verbose manager shows. -/
def debug (m : Manager) (text : String) : Except Failure Streams :=
  if m.verbose then m.message ("[debug] " ++ text) ("[dim][debug] " ++ text ++ "[/dim]")
  else .ok {}

/-! ### Data -/

/-- A text as it is. -/
def data (text : String) : Streams := { data := text ++ "\n" }

/-- The JSON text of data. -/
def jsonText (g : Anchors) (v : Value) : Except Failure String :=
  match Json.write .shown g v with
  | .ok text => .ok text
  | .error .noText => .error .wrongKind
  | .error .containsItself => .error .unreadable

/-- Data as JSON. -/
def json (m : Manager) (g : Anchors) (v : Value) : Except Failure Streams := do
  let text ← jsonText g v
  pure (if m.format = .rich then {} else data text)

/-- Generated source. -/
def source (m : Manager) (text : String) : Streams :=
  if m.format = .rich then {} else data text

/-- A row of a table by its headers; cells without a header are left out. -/
def rowRecord (headers row : List String) : Value :=
  .object (Entries.ofPairs ((headers.zip row).map fun e => (.string e.1, .string e.2)))

/-- A table: its rows as objects, or as lines with tabs between the cells. -/
def table (m : Manager) (headers : List String) (rows : List (List String)) :
    Except Failure Streams :=
  match m.format with
  | .json => do pure (data (← jsonText {} (.list (rows.map (rowRecord headers)))))
  | .rich => .ok {}
  | _ =>
    let lines := (headers :: rows).map fun row => "\t".intercalate row ++ "\n"
    .ok { data := String.join lines }

end Manager

/-! ### The manager of a program -/

/-- A manager that a program shares: the one it installed, or a usual one made on demand,
with a number. -/
inductive Shared where
  | installed
  | made (n : Nat)
deriving DecidableEq, Repr

/-- The shared manager, if there is one now, and how many were made. -/
structure Registry where
  current : Option Shared := none
  made : Nat := 0
deriving DecidableEq, Repr

namespace Registry

/-- The shared manager, made if there is none. -/
def get (r : Registry) : Shared × Registry :=
  match r.current with
  | some s => (s, r)
  | none => (.made r.made, ⟨some (.made r.made), r.made + 1⟩)

/-- The registry with an installed manager. -/
def install (r : Registry) : Registry := { r with current := some .installed }

/-- The registry without a manager. -/
def reset (r : Registry) : Registry := { r with current := none }

/-- Asking again gives the same manager. -/
theorem get_get (r : Registry) : (r.get.2.get).1 = r.get.1 := by
  unfold get
  cases h : r.current <;> simp [h]

/-- After a reset the next manager is a new one. -/
theorem get_reset (r : Registry) : r.reset.get.1 = .made r.made := rfl

end Registry

end SchemaCodegen.Output
