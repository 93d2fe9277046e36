import Overloading.Check.Fixture

/-!
# The signature checker

The checker resolves the calls of a fixture against its declarations and prints how each argument
would be passed, or tells whether a token sequence is a sentence of the signature grammar.  It is
a function of its arguments and of the files it can see.
-/

namespace Overloading.Check

open Overloading.Text

/-- what a run of the checker leaves: an exit status, what it printed, the log records it wrote,
and the fault that stopped it -/
structure Outcome where
  status : Nat
  output : String
  log : List Record
  trouble : Option Fault
  /-- how the checker is called, shown as an error -/
  usage : Bool

namespace Outcome

def success (output : String) : Outcome := ⟨0, output, [], none, false⟩

def failure (f : Fault) : Outcome := ⟨1, "", [], some f, false⟩

end Outcome

def usageText : String :=
  "Usage:\n  sigcheck [-config cppi.yaml] [-v] <fixture.yaml>\n" ++
    "  sigcheck recognize <Start> <token>...\n"

def misused : Outcome := ⟨2, "", [], none, true⟩

/-- the text a run writes to the error stream -/
def Outcome.errors (o : Outcome) : String :=
  (if o.usage then usageText else "") ++ String.join (o.log.map Record.line) ++
    match o.trouble with
    | some f => "Error: " ++ f.text ++ "\n"
    | none => ""

/-! ## Arguments -/

structure Options where
  config : String
  fixture : String
  verbose : Bool

/-- the arguments read so far: options, a request for help, or a misuse -/
inductive Request where
  | check (o : Options)
  | help
  | misuse

def isOption (s : String) : Bool := s.toList.head? == some '-'

def readArgs : List String → Options → Request
  | [], o => if o.fixture == "" then .misuse else .check o
  | a :: rest, o =>
    if a == "-config" || a == "--config" then
      match rest with
      | [] => .misuse
      | path :: rest => readArgs rest { o with config := path }
    else if a == "-v" || a == "--verbose" then readArgs rest { o with verbose := true }
    else if a == "-h" || a == "-help" || a == "--help" || a == "help" then .help
    else if o.fixture != "" || isOption a then .misuse
    else readArgs rest { o with fixture := a }

/-! ## Resolving -/

def missing (label path : String) : Fault :=
  .within (label ++ " " ++ path) (.noSuchFile path)

def showResolution (domain : String) (c : CallEntry) (sig : Signature) (m : Match) : String :=
  "OK " ++ domain ++ "::" ++ c.name ++ " -> " ++ sig.text ++ "\n" ++
    String.join (m.transfers.zipIdx.map fun a =>
      "  arg " ++ toString a.2 ++ ": " ++ a.1.text ++ "\n") ++
    match m.returns with
    | some ts => "  returns: " ++ " ".intercalate ts ++ "\n"
    | none => ""

/-- one call: what is printed, the records written, and whether it resolved -/
def resolveCall (r : Catalog Unit) (c : CallEntry) : String × List Record × Bool :=
  let domain := orGlobal c.domain
  match c.toArgs with
  | .error e => ("ERROR " ++ domain ++ "::" ++ c.name ++ ": " ++ e.text ++ "\n", [], false)
  | .ok (args, explicit) =>
    match r.resolve domain c.name args explicit with
    | .error e => ("FAIL " ++ e.text ++ "\n", [], false)
    | .ok (res, records) =>
      match r.overloads[res.overload]? with
      | some o => (showResolution domain c o.signature res.plan, records, true)
      | none => ("", records, false)

def resolveCalls (r : Catalog Unit) (calls : List CallEntry) : Outcome :=
  let results := calls.map (resolveCall r)
  ⟨if results.all fun x => x.2.2 then 0 else 1, String.join (results.map fun x => x.1),
    results.flatMap fun x => x.2.1, none, false⟩

/-- the records that are shown: warnings, and with the verbose option all -/
def shown (verbose : Bool) (log : List Record) : List Record :=
  log.filter fun r => verbose || r.level = .warn

def readConfig (files : String → Option String) (path : String) : Except Fault Config :=
  if path == "" then .ok Config.default
  else match files path with
    | none => .error (missing "reading config" path)
    | some text => Config.parse text path

def readFixture (files : String → Option String) (path : String) : Except Fault Fixture :=
  match files path with
  | none => .error (missing "reading fixture" path)
  | some text => Fixture.parse text path

def check (files : String → Option String) (o : Options) : Outcome :=
  match readConfig files o.config with
  | .error e => .failure e
  | .ok config =>
    match readFixture files o.fixture with
    | .error e => .failure e
    | .ok fixture =>
      match Catalog.new config with
      | .error e => .failure e
      | .ok (r, records) =>
        let installed := fixture.install r
        match installed.fault with
        | some e =>
          { Outcome.failure e with log := shown o.verbose (records ++ installed.log) }
        | none =>
          let outcome := resolveCalls installed.catalog fixture.calls
          { outcome with log := shown o.verbose (records ++ installed.log ++ outcome.log) }

/-- tells whether tokens are a sentence; a single argument is split at its blanks -/
def recognize : List String → Outcome
  | [] => misused
  | start :: tokens =>
    let tokens := match tokens with
      | [t] => fields t
      | ts => ts
    match Grammar.signature.compile tokens start true with
    | .ok _ => .success "accepted\n"
    | .error e => ⟨1, "rejected: " ++ e.text ++ "\n", [], none, false⟩

/-- the checker as a function of its arguments and the files it sees -/
def run (files : String → Option String) (args : List String) : Outcome :=
  match args with
  | "recognize" :: rest => recognize rest
  | args =>
    match readArgs args ⟨"", "", false⟩ with
    | .misuse => misused
    | .help => .success usageText
    | .check o => check files o

end Overloading.Check
