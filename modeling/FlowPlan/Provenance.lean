import FlowPlan.DataClass
import FlowPlan.Digest
import FlowPlan.Processor

/-!
Provenance: what a plan was compiled from.

The digests cover the text of the manifest and the canonical text of both registries.  Each part of
a digested message ends with a zero byte, so parts cannot run into each other.
-/

namespace FlowPlan

structure Provenance where
  sourceHash : List UInt8
  registryFingerprint : List UInt8
deriving DecidableEq, Repr

namespace Provenance

/-- The version of this compiler. -/
def compilerVersion : String := "0.3.0"

/-- The message that stands for several texts. -/
def framed (parts : List String) : List UInt8 := parts.flatMap fun s => s.toUTF8.toList ++ [0]

/-- The texts that the fingerprint of the registries is taken of. -/
def registryParts (processors : ProcessorRegistry) (classes : DataClassRegistry) : List String :=
  [ProcessorRegistry.canonicalJson processors, DataClassRegistry.canonicalJson classes]

def compute (source : String) (processors : ProcessorRegistry) (classes : DataClassRegistry) :
    Provenance :=
  { sourceHash := Digest.sha256 (framed [source]),
    registryFingerprint := Digest.sha256 (framed (registryParts processors classes)) }

/-- The record of a build, one field in a line. -/
def toJson (p : Provenance) : String :=
  "\x7b\n"
    ++ s!"  \"source_hash\": \"{Digest.toHex p.sourceHash}\",\n"
    ++ s!"  \"registry_fingerprint\": \"{Digest.toHex p.registryFingerprint}\",\n"
    ++ "  \"manifest_schema_version\": 1,\n"
    ++ s!"  \"compiler_version\": \"{compilerVersion}\"\n"
    ++ "\x7d\n"

end Provenance
end FlowPlan
