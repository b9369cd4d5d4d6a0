import Yurin.Diagnostic
import Yurin.Engine.Cache
import Yurin.Highlight.Declared
import Yurin.Highlight.Lexical
import Yurin.Highlight.Referenced
import Yurin.SemanticTokens
import Yurin.Skeleton.Outline

/-!
# The highlighting engine

The engine runs all passes over a source: tokens and tree, skeleton, scopes and bindings
(`Analysis`, which no theme enters), and from them the highlights. Between passes it asks its caller
whether to go on; a caller that has lost interest gets no result. With a cache the analysis of a
source seen before is used again.

A call runs in `Call`: it may be abandoned, and it changes the cache, the patience of the caller and
the list of events.
-/

namespace Yurin

open Skeleton

/-- Everything the engine learns about a source apart from highlights. -/
structure Analysis where
  source : Bytes
  tokens : List Token
  file : SourceFile
  diagnostics : List Diagnostic
  package : Package
  index : Index
  scopes : Scope
  bindings : List Binding
  outline : List QualifiedType

/-- Something that happened during a call. -/
inductive Event
  | analyzed (tokens declarations scopes bindings diagnostics : Nat)
  | cacheHit (bytes : Nat)
  | unresolved (reference : Bytes) (resolved : Nat) (line : Int)
  deriving DecidableEq, Repr

/-- The passes that a caller can forgo. -/
inductive Stage
  | parsing | skeleton | scopes | declaredNames | references
  deriving DecidableEq, Repr

/-- The name of a pass. -/
def Stage.name : Stage → String
  | .parsing => "parsing"
  | .skeleton => "skeleton"
  | .scopes => "scopes"
  | .declaredNames => "syntax pass"
  | .references => "semantic pass"

/-- Why a call has no result. -/
inductive EngineError
  /-- The caller lost interest before a pass. -/
  | abandoned (next : Stage)
  | noSkeleton (error : BuildError)
  deriving DecidableEq, Repr

/-- The text of an engine error. -/
def EngineError.message : EngineError → Bytes
  | .abandoned next => utf8 "abandoned before " ++ utf8 next.name ++ utf8 ": context canceled"
  | .noSkeleton e => utf8 "building skeleton: " ++ e.message

/-- Why there are no tokens of a source: there are no highlights to make them of. -/
structure TokensError where
  cause : EngineError
  deriving DecidableEq, Repr

namespace TokensError

/-- What a call for tokens is busy with when it fails. -/
def doing : Bytes := utf8 "highlighting"

/-- The text of an error of a call for tokens. -/
def message (e : TokensError) : Bytes := doing ++ utf8 ": " ++ e.cause.message

end TokensError

/-- How many more times the caller says to go on; without a number, always. -/
abbrev Patience := Option Nat

/-- An engine: its theme, the digest by which it remembers sources, and its cache, if it has one. -/
structure Engine (κ : Type) where
  theme : Theme
  digest : Bytes → κ
  cache : Option (Cache κ Analysis)

/-- What a call changes. -/
structure CallState (κ : Type) where
  cache : Option (Cache κ Analysis)
  patience : Patience
  events : List Event

/-- A call of the engine. -/
abbrev Call (κ : Type) := ExceptT EngineError (StateM (CallState κ))

namespace Engine

variable {κ : Type} [DecidableEq κ]

/-- The engine with a theme that remembers the latest `size` sources by themselves; none for a size
of zero or less. -/
def create (theme : Theme) (size : Int) : Engine Bytes :=
  ⟨theme, id, if size ≤ 0 then none else some (.empty size.toNat)⟩

/-- Adds an event. -/
def emit (e : Event) : Call κ Unit := modify fun s => { s with events := s.events ++ [e] }

/-- Asks the caller whether to go on with a pass. -/
def checkpoint (next : Stage) : Call κ Unit := do
  match (← get).patience with
  | none => return
  | some 0 => throw (.abandoned next)
  | some (n + 1) => modify fun s => { s with patience := some n }

/-- The remembered analysis of a source. Another source with the same digest does not count. -/
def remembered? (e : Engine κ) (source : Bytes) : Call κ (Option Analysis) := do
  match (← get).cache with
  | none => return none
  | some cache =>
    let (found, cache) := cache.get (e.digest source)
    modify fun s => { s with cache := some cache }
    return found.filter (·.source == source)

/-- Remembers an analysis. -/
def remember (e : Engine κ) (a : Analysis) : Call κ Unit :=
  modify fun s => { s with cache := s.cache.map (·.add (e.digest a.source) a) }

/-- The diagnostics of a source. -/
def diagnostics (e : Engine κ) (source : Bytes) : Call κ (List Diagnostic) := do
  match ← e.remembered? source with
  | some a => return a.diagnostics
  | none =>
    checkpoint .parsing
    return diagnose source

/-- The skeleton of a file; building it does not fail on what the parser returns. -/
def skeleton (file : SourceFile) : Call κ (Package × Index) :=
  match ofFile file with
  | .ok built => return built
  | .error e => throw (.noSkeleton e)

/-- Runs the passes that do not depend on the theme. -/
def analyzeAfresh (source : Bytes) : Call κ Analysis := do
  checkpoint .parsing
  let tokens := lex source
  let parsed := parseTokens tokens
  checkpoint .skeleton
  let (package, index) ← skeleton parsed.file
  checkpoint .scopes
  let scopes := Scope.ofPackage package
  let a : Analysis := {
    source, tokens, package, index, scopes
    file := parsed.file
    diagnostics := (Collector.ofComplaints source parsed.complaints).diagnostics
    bindings := bind parsed.file package index scopes
    outline := package.outline }
  emit (.analyzed tokens.length package.declarations.length scopes.size a.bindings.length
    a.diagnostics.length)
  return a

/-- The analysis of a source. -/
def analyze (e : Engine κ) (source : Bytes) : Call κ Analysis := do
  match ← e.remembered? source with
  | some a =>
    emit (.cacheHit source.length)
    return a
  | none =>
    let a ← analyzeAfresh source
    e.remember a
    return a

/-- The event of a reference with a segment that names nothing. -/
def unresolvedEvent? (r : Resolution) : Option Event :=
  match r.parts with
  | [] => none
  | first :: _ =>
    if r.resolved < r.parts.length then
      some (.unresolved (Bytes.join (utf8 ".") (r.parts.map Identifier.name)) r.resolved
        first.token.line)
    else none

/-- The highlights of a source, pass after pass, and its diagnostics. -/
def highlight (e : Engine κ) (source : Bytes) : Call κ (List Highlight × List Diagnostic) := do
  let a ← e.analyze source
  let lexical := lexicalHighlights e.theme a.tokens
  checkpoint .declaredNames
  let declared := declaredHighlights e.theme a.file.node
  checkpoint .references
  let resolved := resolutions a.file a.package
  let _ ← (resolved.filterMap unresolvedEvent?).mapM emit
  let referenced := resolved.flatMap (Resolution.highlights e.theme)
  let bound := bindingHighlights e.theme a.bindings
  let errors := errorHighlights e.theme a.source a.diagnostics
  return (lexical ++ declared ++ referenced ++ bound ++ errors, a.diagnostics)

/-- The encoded semantic tokens of a source; with a range, only those on its lines. -/
def tokens (e : Engine κ) (source : Bytes) (range : Option (Int × Int)) :
    Call κ (List UInt32) := do
  let (highlights, _) ← e.highlight source
  let tokens := SemanticToken.ofHighlights source highlights
  match range with
  | none => return SemanticToken.encode tokens
  | some (first, last) => return SemanticToken.encode (SemanticToken.onLines first last tokens)

/-- Runs a call: its outcome, its events, and the engine after it. -/
def run (e : Engine κ) (patience : Patience) (call : Call κ α) :
    Except EngineError α × List Event × Engine κ :=
  let (outcome, state) := call.run.run ⟨e.cache, patience, []⟩
  (outcome, state.events, { e with cache := state.cache })

/-- The outcome of a call. -/
def eval (e : Engine κ) (patience : Patience) (call : Call κ α) : Except EngineError α :=
  (e.run patience call).1

/-- The outcome of a call for tokens. -/
def evalTokens (e : Engine κ) (patience : Patience) (source : Bytes)
    (range : Option (Int × Int)) : Except TokensError (List UInt32) :=
  (e.eval patience (e.tokens source range)).mapError .mk

/-- The engine with the default theme and no cache. -/
def standard : Engine Bytes := create .default 0

end Engine

end Yurin
