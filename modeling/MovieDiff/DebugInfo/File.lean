import MovieDiff.Keyed
import MovieDiff.Files.FileSystem
import MovieDiff.Text.Json

/-!
Debug files: which scripts a movie has, which line of a script is at which byte offset, and the
names of registers. A file is a signature, a version and records; each record starts with a
tag. Numbers are little-endian, texts end at a zero byte.
-/
namespace MovieDiff.DebugInfo

structure ScriptRecord where
  module : Nat
  bitmap : Nat
  name : String
  text : String
  deriving DecidableEq, Repr

/-- Lines count from one. -/
structure OffsetRecord where
  module : Nat
  line : Nat
  offset : Nat
  deriving DecidableEq, Repr

structure RegistersRecord where
  offset : Nat
  names : Keyed Nat String
  deriving DecidableEq, Repr

/-- Breakpoints and identifiers carry nothing that is used. -/
inductive Record where
  | script (r : ScriptRecord)
  | offset (r : OffsetRecord)
  | breakpoint
  | identifier
  | registers (r : RegistersRecord)
  deriving DecidableEq, Repr

structure DebugFile where
  scripts : List ScriptRecord
  offsets : List OffsetRecord
  registers : List RegistersRecord
  deriving DecidableEq, Repr

def DebugFile.ofRecords (records : List Record) : DebugFile where
  scripts := records.filterMap fun
    | .script r => some r
    | _ => none
  offsets := records.filterMap fun
    | .offset r => some r
    | _ => none
  registers := records.filterMap fun
    | .registers r => some r
    | _ => none

/-! ### Reading -/

def readByte : Bytes → Except Fault (Nat × Bytes)
  | b :: rest => .ok (b.toNat, rest)
  | [] => .error .missingByte

def readNumber : Bytes → Except Fault (Nat × Bytes)
  | a :: b :: c :: d :: rest =>
    .ok (a.toNat + 256 * (b.toNat + 256 * (c.toNat + 256 * d.toNat)), rest)
  | _ => .error .truncatedNumber

def readText (bytes : Bytes) : Except Fault (String × Bytes) :=
  match bytes.dropWhile (· ≠ 0) with
  | [] => .error .unterminatedText
  | _ :: rest =>
    match Text.decodeStrict (bytes.takeWhile (· ≠ 0)) with
    | some cs => .ok (String.ofList cs, rest)
    | none => .error .undecodableText

/-- So many registers: an index and a name each. -/
def readRegisters : Nat → Keyed Nat String → Bytes → Except Fault (Keyed Nat String × Bytes)
  | 0, names, bytes => .ok (names, bytes)
  | count + 1, names, bytes => do
    let (index, bytes) ← readByte bytes
    let (name, bytes) ← readText bytes
    readRegisters count (Keyed.put index name names) bytes

/-- The record of a tag; `position` is where the record goes on after the tag. -/
def readRecord (position tag : Nat) (bytes : Bytes) : Except Fault (Record × Bytes) :=
  match tag with
  | 0 => do
    let (module, bytes) ← readNumber bytes
    let (bitmap, bytes) ← readNumber bytes
    let (name, bytes) ← readText bytes
    let (text, bytes) ← readText bytes
    return (.script ⟨module, bitmap, name, text⟩, bytes)
  | 1 => do
    let (module, bytes) ← readNumber bytes
    let (line, bytes) ← readNumber bytes
    let (offset, bytes) ← readNumber bytes
    return (.offset ⟨module, line, offset⟩, bytes)
  | 2 => .ok (.breakpoint, bytes.drop 4)
  | 3 => .ok (.identifier, bytes.drop 16)
  | 5 => do
    let (offset, bytes) ← readNumber bytes
    let (count, bytes) ← readByte bytes
    let (names, bytes) ← readRegisters count [] bytes
    return (.registers ⟨offset, names⟩, bytes)
  | _ => .error (.unknownDebugTag tag position)

/-- The records up to the end of a file of `size` bytes. A record takes four bytes or more, so
the number of bytes is fuel enough. -/
def readRecords (size : Nat) : Nat → Bytes → Except Fault (List Record)
  | 0, _ => .ok []
  | _, [] => .ok []
  | fuel + 1, bytes => do
    let (tag, bytes) ← readNumber bytes
    let (record, bytes) ← readRecord (size - bytes.length) tag bytes
    return record :: (← readRecords size fuel bytes)

/-- The three letters at the start of a file. -/
def signature : Bytes := [0x46, 0x57, 0x44]

def oldestVersion : Nat := 6

def DebugFile.parse (bytes : Bytes) : Except Fault DebugFile := do
  if bytes.take 3 ≠ signature then throw .badDebugHeader
  let (version, body) ← readByte (bytes.drop 3)
  if version < oldestVersion then throw (.unsupportedDebugVersion version)
  return .ofRecords (← readRecords bytes.length body.length body)

/-! ### Writing as JSON -/

open Text (Json)

def ScriptRecord.toJson (r : ScriptRecord) : Json :=
  .object [("module", .ofInt r.module), ("bitmap", .ofInt r.bitmap), ("name", .string r.name),
    ("text", .string r.text)]

def OffsetRecord.toJson (r : OffsetRecord) : Json :=
  .object [("module", .ofInt r.module), ("line", .ofInt r.line), ("offset", .ofInt r.offset)]

def RegistersRecord.toJson (r : RegistersRecord) : Json :=
  .object [("offset", .ofInt r.offset),
    ("registers", .object (r.names.map fun (index, name) => (toString index, .string name)))]

def DebugFile.toJson (file : DebugFile) : Json :=
  .object [("scripts", .array (file.scripts.map ScriptRecord.toJson)),
    ("offsets", .array (file.offsets.map OffsetRecord.toJson)),
    ("registers", .array (file.registers.map RegistersRecord.toJson))]

end MovieDiff.DebugInfo
