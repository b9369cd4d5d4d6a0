import Yurin.Command.Basic
import Yurin.Skeleton.Dump
import Yurin.Text.Json

/-!
# The skeleton and tokens commands

Both print what the engine knows about one file: its skeleton, in full or as an outline of its
types, or its semantic tokens with their legend.
-/

namespace Yurin

namespace SkeletonCommand

/-- The flags of the command. -/
def flags : List Flag := [⟨"outline", .truth⟩]

/-- The line of a type in an outline: its kind, five columns wide, and its name. -/
def outlineLine (q : Skeleton.QualifiedType) : Bytes :=
  let kind := utf8 q.kind.name
  kind ++ List.replicate (5 - kind.length) 32 ++ utf8 " " ++ q.text ++ [lineFeed]

/-- Runs the command. -/
def run (s : Surroundings) (line : CommandLine) : Output CommandError :=
  .ofExcept (onlyArgument line.arguments) fun path =>
    .ofExcept (readFile s.tree path) fun source =>
      let engine := Engine.create .default 0
      .ofExcept (ask s engine (utf8 "analyzing " ++ path) (engine.analyze source)) fun a =>
        if line.isOn "outline" then
          .all (a.outline.map fun q => .write (.refused refusedWrite) (outlineLine q))
        else .write (.refused refusedWrite) (a.package.dump ++ [lineFeed])

end SkeletonCommand

namespace TokensCommand

/-- The flags of the command. -/
def flags : List Flag := [⟨"indent", .truth⟩]

/-- Encoded tokens and their legend as JSON. -/
def tokensJson (data : List UInt32) : JsonValue :=
  let names (ns : List String) : JsonValue := .array (ns.map fun n => .string (utf8 n))
  .object [("legend", .object [("tokenTypes", names (TokenType.all.map TokenType.name)),
      ("tokenModifiers", names tokenModifierNames)]),
    ("data", .array (data.map fun n => .int n.toNat))]

/-- Runs the command. -/
def run (s : Surroundings) (line : CommandLine) : Output CommandError :=
  .ofExcept (onlyArgument line.arguments) fun path =>
    .ofExcept (readFile s.tree path) fun source =>
      let engine := Engine.create .default 0
      let computing := utf8 "computing tokens for " ++ path ++ utf8 ": "
      let outcome := (engine.evalTokens s.patience source none).mapError
        fun e => CommandError.engine (computing ++ TokensError.doing) e.cause
      .ofExcept outcome fun data =>
        let json := tokensJson data
        writeDoing (utf8 "encoding")
          ((if line.isOn "indent" then json.indented 0 else json.compact) ++ [lineFeed])

end TokensCommand

end Yurin
