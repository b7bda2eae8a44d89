import MovieDiff.Text.Printable

/-!
What can go wrong, as causes. `Fault.kind` sorts the causes by how a caller may react to them,
and `Fault.message` is the one place that words them.
-/
namespace MovieDiff

inductive FaultKind where
  | invalidValue
  | brokenCheck
  | outOfRange
  | unknownKey
  | mismatch
  | missingAttribute
  | divisionByZero
  | badEncoding
  | badJson
  | truncated
  | missingFile
  | noSuchFile
  | notADirectory
  | isADirectory
  | fileExists
  | nameTooLong
  | failure
  | failedLookup
  | badUsage
  | unsupported
  | badMarkup
  | badColor
  | badStyle
  | missingStyle
  deriving DecidableEq, Repr

inductive Fault where
  -- reading and normalising p-code
  | unclosedString
  | missingOperand
  | unnamedDefinition
  | mistypedOperand
  | blankLabel
  | lineOutOfRange
  -- hunks and spans
  | severalMarks
  | conflictingLine (index : Int) (known found : String)
  | malformedSpan (start stop : Int)
  | spanOutOfBounds (start stop : Int)
  | emptyBlock
  | invalidSpan (start stop : Int)
  | emptySpanPair
  | oneSidedSpanPair
  | noSourceLines
  | noLastSourceLine
  | missingBlockSide
  | missingHunk
  | incomparableHunks
  | spanOutsideScript (start stop : Int) (lineCount : Nat) (originStart originStop : Int)
      (side script block : String)
  | missingScriptSide
  | oneSidedScript
  | untitledScript
  | untitledBlock
  -- diff sets
  | noScriptPath
  | noBlockName
  | unknownScript (description : String)
  | noDiffEntry
  | rootNodeValue (found : String)
  | directoryNodeValue (found : String)
  | scriptNodeValue (found : String)
  | blockNodeValue (found : String)
  | nestedRoot
  | incomparablePositions
  | noChangedLines
  | noScriptBlocks
  | blockNotFound (name : String)
  -- layouts
  | noUnifiedSide
  | invalidSide (side : String)
  | unmatchedTag (tag : String)
  | badAction (parameters : String)
  | notAColor (text : String)
  | notANumber (text : String)
  | notAStyle (text : String)
  | missingStyle (text : String)
  | notRendered (component : String)
  -- debug files
  | badDebugHeader
  | unsupportedDebugVersion (version : Nat)
  | unknownDebugTag (tag position : Nat)
  | truncatedNumber
  | missingByte
  | unterminatedText
  | undecodableText
  | scriptNotInDebugFile (script : String)
  -- files and workspaces
  | outsideExtraction
  | outsideNormalization
  | debugFileMissing (path : String)
  | scriptFileMissing (script path : String)
  | blockOrderMissing (path : String)
  | cacheMissing (path : String)
  | cacheEmpty (path : String)
  | actionScriptMissing (path : String)
  | extractorUnresolved
  | extractorMissing (path : String)
  | noSuchFile (path : String)
  | notADirectory (path : String)
  | isADirectory (path : String)
  | fileExists (path : String)
  | nameTooLong (path : String)
  | nullInPath
  | emptyPattern
  | bareDotPattern
  | dotDirectoryPattern
  | absolutePattern
  | joinedStars
  | malformedJson
  | notIndexable
  | notALine
  | textOutOfRange
  | missingIndexKey
  -- options
  | emptyFilter
  | malformedFilter
  | unknownFilterKey
  | emptyFilterValue
  | noFilterMatch
  | headAndFull
  | summaryOnlyAndNone
  deriving DecidableEq, Repr

namespace Fault

def kind : Fault → FaultKind
  | unclosedString | unnamedDefinition | mistypedOperand | oneSidedSpanPair | missingBlockSide
  | missingHunk | spanOutsideScript .. | nestedRoot | badDebugHeader
  | unsupportedDebugVersion _ => .brokenCheck
  | missingOperand | lineOutOfRange | textOutOfRange | missingByte | bareDotPattern => .outOfRange
  | incomparablePositions | incomparableHunks | notIndexable | notALine | oneSidedScript
  | untitledScript | untitledBlock => .mismatch
  | missingScriptSide | dotDirectoryPattern => .missingAttribute
  | noDiffEntry | missingIndexKey => .unknownKey
  | noChangedLines | noScriptBlocks => .divisionByZero
  | undecodableText => .badEncoding
  | malformedJson => .badJson
  | truncatedNumber => .truncated
  | debugFileMissing _ | scriptFileMissing .. | blockOrderMissing _ | cacheMissing _
  | cacheEmpty _ | actionScriptMissing _ | extractorUnresolved | extractorMissing _ => .missingFile
  | noSuchFile _ => .noSuchFile
  | notADirectory _ => .notADirectory
  | isADirectory _ => .isADirectory
  | fileExists _ => .fileExists
  | nameTooLong _ => .nameTooLong
  | notRendered _ | noFilterMatch | scriptNotInDebugFile _ => .failure
  | blockNotFound _ => .failedLookup
  | headAndFull | summaryOnlyAndNone => .badUsage
  | absolutePattern => .unsupported
  | unmatchedTag _ | badAction _ => .badMarkup
  | notAColor _ => .badColor
  | notAStyle _ => .badStyle
  | missingStyle _ => .missingStyle
  | _ => .invalidValue

def message : Fault → String
  | missingOperand | lineOutOfRange => "list index out of range"
  | textOutOfRange => "string index out of range"
  | missingByte => "index out of range"
  | blankLabel => "Label cannot be None or blank in PcodeBlankLineWithLabel."
  | severalMarks =>
    "A TextHunkLine can only have one annotation among context, deletion, or addition."
  | conflictingLine index known found =>
    s!"Cannot merge text hunks: conflicting contents at line index {index} (" ++
      Text.quoted known ++ " vs " ++ Text.quoted found ++ ")."
  | malformedSpan start stop => s!"Provided line span is malformed: [{start}:{stop}[."
  | spanOutOfBounds start stop =>
    s!"Line selection contains an out-of-bounds span: [{start}:{stop}[."
  | emptyBlock => "P-code block must not be empty."
  | invalidSpan start stop => s!"Provided line span is invalid: ({start}, {stop})"
  | emptySpanPair => "RenderDiffSpanPair must have at least one side defined."
  | noSourceLines => "min() arg is an empty sequence"
  | noLastSourceLine => "max() arg is an empty sequence"
  | spanOutsideScript start stop lineCount originStart originStop side script block =>
    s!"ActionScript line span [{start}, {stop}[ is malformed or out of range. " ++
      s!"The script has {lineCount} lines. (origin span: [{originStart}, {originStop}[, " ++
      s!"side: {side}, script: '{script}', block: '{block}')"
  | noScriptPath => "At least one of 'side_a_path' or 'side_b_path' must be defined."
  | noBlockName => "At least one of 'side_a_name' or 'side_b_name' must be defined."
  | unknownScript description => s!"Script path '{description}' is unknown."
  | rootNodeValue found => s!"Root node must have a None value; got {found}."
  | directoryNodeValue found => s!"Directory nodes must have a string value; got {found}."
  | scriptNodeValue found => s!"Script nodes must have a GfxScript value; got {found}."
  | blockNodeValue found =>
    s!"Script block nodes must have a GfxScriptBlock value; got {found}."
  | nestedRoot => "must never reach this code."
  | blockNotFound name => "Block " ++ Text.quoted name ++ " not found in normalized blocks."
  | noUnifiedSide => "At least one side must be defined."
  | invalidSide side => "Invalid side " ++ Text.quoted side ++ ": must be 'a' or 'b'."
  | notANumber text => "invalid literal for int() with base 10: " ++ Text.quoted text
  | notRendered component =>
    s!"Cannot call {component}.get_last_render_height before rendering the component."
  | badDebugHeader => "Invalid SWD header"
  | unsupportedDebugVersion version => s!"SWD version {version} unsupported"
  | unknownDebugTag tag position => s!"Unknown SWD tag {tag} at position {position}."
  | unterminatedText => "subsection not found"
  | scriptNotInDebugFile script => "Script " ++ Text.quoted script ++ " not found in SWD file."
  | outsideExtraction => "Extraction path must be relative to workspace."
  | outsideNormalization => "Normalization path must be relative to workspace."
  | debugFileMissing path => s!"SWD debug file not found: {path}."
  | scriptFileMissing script path => s!"Script {script} not found in workspace at '{path}'."
  | blockOrderMissing path =>
    s!"Normalized script block order file not found in workspace at '{path}'."
  | cacheMissing path => s!"Missing normalization cache directory: {path}."
  | cacheEmpty path => s!"Normalization cache directory is empty: {path}."
  | actionScriptMissing path => s!"ActionScript file not found: {path}."
  | extractorUnresolved => "Unable to automatically resolve the path to ffdec."
  | extractorMissing path =>
    s!"The provided ffdec binary path ({path}) does not exist or is not a file."
  | noSuchFile path => "[Errno 2] No such file or directory: " ++ Text.quoted path
  | notADirectory path => "[Errno 20] Not a directory: " ++ Text.quoted path
  | isADirectory path => "[Errno 21] Is a directory: " ++ Text.quoted path
  | fileExists path => "[Errno 17] File exists: " ++ Text.quoted path
  | nameTooLong path => "[Errno 36] File name too long: " ++ Text.quoted path
  | nullInPath => "embedded null byte"
  | emptyPattern => "Unacceptable pattern: ''"
  | bareDotPattern => "tuple index out of range"
  | absolutePattern => "Non-relative patterns are unsupported"
  | joinedStars => "Invalid pattern: '**' can only be an entire path component"
  | emptyFilter => "--filter value must not be empty."
  | malformedFilter =>
    "--filter value is malformed. It must look like \"script=Inventory,block=character\"."
  | unknownFilterKey =>
    "--filter value is invalid. Filter keys must be \"script\" or \"block\"."
  | emptyFilterValue => "--filter value is invalid. Filter values must not be empty."
  | noFilterMatch => "No script or block name matches the provided filters."
  | headAndFull => "Options --head and --full are mutually exclusive."
  | summaryOnlyAndNone => "Options --summary-only and --no-summary are mutually exclusive."
  | _ => ""

end Fault

end MovieDiff
