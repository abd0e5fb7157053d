import CodeCache.Text.Utf8
import CodeCache.Metadata.Key
import CodeCache.Tag.Record
import CodeCache.Selection.Verdict

/-!
# Errors

Everything that can go wrong, by class of failure and cause. The class decides how a failure is
treated: a stale or contradicted version is passed over, a malformed one is corruption, and a file
of another format or build is refused as a whole. `Error.message` gives every wording.
-/

namespace CodeCache

open Layout (hex bracketed)

structure ShortRead where
  offset : Nat
  wanted : Nat
  size : Nat
  deriving DecidableEq, Repr

def ShortRead.message (r : ShortRead) : String :=
  s!"read of {r.wanted} bytes at offset {r.offset} past end {r.size}"

/-! ## Files of another format -/

inductive FormatKind where
  | badMagic
  | buildIdentity
  | sizeMismatch
  | truncated
  | badHeader
  deriving DecidableEq, Repr

def FormatKind.name : FormatKind → String
  | badMagic => "BadMagic"
  | buildIdentity => "BuildIdentity"
  | sizeMismatch => "SizeMismatch"
  | truncated => "Truncated"
  | badHeader => "BadHeader"

inductive StringFault where
  | short (r : ShortRead)
  | malformed (offset : Nat) (fault : Utf8.Fault)
  deriving DecidableEq, Repr

inductive FormatFault where
  | short (r : ShortRead)
  | badMagic (expected found : Nat)
  | badIdentity (fault : StringFault)
  | sizeMismatch (declared actual : Nat)
  | sectionOutside
  | containerCount (count : Nat)
  | noCache (size : Nat)
  | otherBuild (found expected : String)
  deriving DecidableEq, Repr

namespace FormatFault

def kind : FormatFault → FormatKind
  | short _ => .truncated
  | badMagic .. => .badMagic
  | badIdentity _ => .badHeader
  | sizeMismatch .. => .sizeMismatch
  | sectionOutside => .badHeader
  | containerCount _ => .badHeader
  | noCache _ => .truncated
  | otherBuild .. => .buildIdentity

end FormatFault

/-! ## Stale references -/

inductive Unresolved where
  | globalMissing (kind : GlobalKind)
  | customLoader (name : String)
  | notFound (key : MetaKey)
  | otherLoader (key : MetaKey) (found : Loader)
  | otherIdentity (key : MetaKey) (found : UInt64)
  | unnameable (object : Object)
  | unknownAddress (what : String) (site : UInt32) (address : UInt64)
  | oopIndex (index : UInt32)
  | metadataIndex (index : UInt32)
  | outsideCode (site : UInt32) (target first last : UInt64)
  | notReady (className : String) (state needed : InitState)
  | notCached (name : String)
  | noVersion (name : String) (version : Nat)
  | failedVersion (version : Nat) (name : String) (verdict : Verdict)
  deriving DecidableEq, Repr

namespace Unresolved

def versionMessage (version : Nat) (name : String) (verdict : Verdict) : String :=
  s!"version {version} of {name}: {verdict.name}"

def message : Unresolved → String
  | globalMissing kind => s!"vm global {kind.name} not registered"
  | customLoader name => s!"{name} is defined by a custom loader"
  | notFound key => s!"{key.name.display} not found in {key.loader.name} loader"
  | otherLoader key found =>
    s!"{key.name.display} is defined by the {found.name} loader, cached {key.loader.name}"
  | otherIdentity key found =>
    s!"{key.name.display} has identity {hex found.toNat}, cached {hex key.identity.toNat}"
  | unnameable object => s!"object {object.describe} cannot be named"
  | unknownAddress what site address =>
    s!"{what} at {site} targets unknown address {hex address.toNat}"
  | oopIndex index => s!"oop index {index} outside oop array"
  | metadataIndex index => s!"metadata index {index} outside array"
  | outsideCode site target first last =>
    s!"internal word at {site} targets {hex target.toNat} outside "
      ++ s!"[{hex first.toNat}, {hex last.toNat}]"
  | notReady className state needed =>
    s!"{className} is {state.name}, code needs {needed.name}"
  | notCached name => s!"{name} is not in the cache"
  | noVersion name version => s!"{name} has no version {version}"
  | failedVersion version name verdict => versionMessage version name verdict

end Unresolved

/-! ## Contradicted assumptions -/

inductive Violation where
  | assumption (kindName : String) (args : List UInt32)
  | failedVersion (version : Nat) (name : String) (verdict : Verdict)
  deriving DecidableEq, Repr

def Violation.message : Violation → String
  | assumption kindName args => s!"{kindName} over {bracketed (args.map UInt32.toNat)}"
  | failedVersion version name verdict => Unresolved.versionMessage version name verdict

inductive Rejection where
  | constantsDisabled
  | trapsOnReceiver (bci : Int32) (className : String)
  | trapsOnUnprofiled (bci : Int32) (count : Int64)
  | negativeCount (bci : Int32)
  | otherReceiver (bci : Int32) (className : String)
  | trappedBranch (bci : Int32) (taken notTaken : Int64)
  | noConstant (offset : UInt32)
  | changedConstant (offset : UInt32) (recorded current : Int64)
  | failedVersion (version : Nat) (name : String) (verdict : Verdict)
  deriving DecidableEq, Repr

def Rejection.message : Rejection → String
  | constantsDisabled => "constant replacement is disabled"
  | trapsOnReceiver bci className =>
    s!"devirtualized call at bci {bci.toInt} traps on receiver {className}"
  | trapsOnUnprofiled bci count =>
    s!"devirtualized call at bci {bci.toInt} traps on {count.toInt} unprofiled receivers"
  | negativeCount bci => s!"negative receiver count at bci {bci.toInt}"
  | otherReceiver bci className => s!"profiled receiver at bci {bci.toInt} is now {className}"
  | trappedBranch bci taken notTaken =>
    s!"trapped branch at bci {bci.toInt} taken {taken.toInt} not taken {notTaken.toInt}"
  | noConstant offset => s!"field at offset {offset} is not a primitive constant"
  | changedConstant offset recorded current =>
    s!"constant at offset {offset} changed from {recorded.toInt} to {current.toInt}"
  | failedVersion version name verdict => Unresolved.versionMessage version name verdict

/-! ## Malformed contents -/

inductive RecordFault where
  | endOfInput
  | variant (found count : Nat)
  | boolean (found : Nat)
  | optionTag (found : Nat)
  deriving DecidableEq, Repr

def RecordFault.message : RecordFault → String
  | endOfInput => "io error: unexpected end of file"
  | variant found count =>
    s!"invalid value: integer \x60{found}\x60, expected variant index 0 <= i < {count}"
  | boolean found => s!"invalid u8 while decoding bool, expected 0 or 1, found {found}"
  | optionTag found => s!"tag for enum is not valid, found {found}"

inductive Corruption where
  | string (offset : Nat) (fault : Utf8.Fault)
  | patchSlot (offset size : Nat)
  | globalOffset (offset : UInt32) (kind : GlobalKind)
  | flagCount (count held : Nat)
  | metaIndex (index : UInt32) (count : Nat)
  | metaCount (count held : Nat)
  | metaLoader (entry : Nat)
  | metaKind (entry : Nat) (kind : UInt16)
  | metaDuplicate (entry earlier : Nat)
  | tableShape (buckets entries size : Nat)
  | chainMisaligned (offset : Nat)
  | chainOutside (entry : Nat)
  | chainEndless
  | versionsEndless (offset : UInt32)
  | containerSection (start : Nat)
  | containerLink (start next : Nat)
  | containerChain (offset : Nat) (count : Nat)
  | containerCount (declared found : Nat)
  | blobMisaligned (start : Nat)
  | blobHeader (start : Nat)
  | blobOutside (start size : Nat)
  | blobSize (start size : Nat)
  | blobSection (name : String) (start finish : Nat) (blob size : Nat)
  | relocationKind (code : UInt16) (site : UInt32)
  | tagMisaligned (start : Nat)
  | tagShort (start : Nat) (r : ShortRead)
  | tagCode (code : UInt16) (start : Nat)
  | tagReserved (name : String) (start : Nat)
  | tagGlobal (code : UInt16) (start : Nat)
  | tagText (start : Nat) (fault : Utf8.Fault)
  | tagLoader (start : Nat) (code : UInt16)
  | tagKnown (index : UInt32) (start : Nat)
  | tagState (code : UInt32) (start : Nat)
  | tagNotEnd (position : Nat) (record : TagRecord)
  | tagIndex (record : TagRecord) (start count : Nat)
  | stackMapSize (declared held : Nat)
  | stackMapData (entry : Nat)
  | records (fault : RecordFault)
  | dependencyIndex (index : UInt32) (count : Nat)
  | dependencyNoEntry (index : UInt32)
  | dependencyArity (position : Nat)
  | dependencyContext
  | dependencyNoClass (index : UInt32)
  | dependencyNoMethod (index : UInt32)
  | optIndex (index : UInt32) (count : Nat)
  | optNoEntry (index : UInt32)
  | optNoMethod (index : UInt32)
  | optNoClass (index : UInt32)
  | namesMethod (index : UInt32)
  | namesClass (index : UInt32)
  | metadataPosition (record : TagRecord)
  | oopPosition (record : TagRecord)
  | streamEnds (site : UInt32)
  | streamOverruns
  | globalSite (record : TagRecord) (site : UInt32)
  | metadataAtOopSite (site : UInt32)
  | oopSite (record : TagRecord) (site : UInt32)
  | objectAtMetadataSite (site : UInt32)
  | metadataSite (record : TagRecord) (site : UInt32)
  | arrayIndex (what : String) (index : UInt32) (count : Nat)
  | pollSite (record : TagRecord) (site : UInt32)
  | internalSite (record : TagRecord) (site codeSize : UInt32)
  | valuesUnused (count : Nat)
  | reindexedSize (size room : Nat)
  deriving Repr

def Corruption.message : Corruption → String
  | string offset fault => s!"invalid string at offset {offset}: {fault.message}"
  | patchSlot offset size => s!"patch slot {offset} outside code of {size} bytes"
  | globalOffset offset kind => s!"offset {offset} outside vm global {kind.name}"
  | flagCount count held => s!"fingerprint declares {count} flags in {held} bytes"
  | metaIndex index count => s!"metaspace index {index} out of {count}"
  | metaCount count held => s!"metaspace declares {count} entries in {held} bytes"
  | metaLoader entry => s!"metaspace entry {entry} has a bad loader"
  | metaKind entry kind => s!"metaspace entry {entry} has kind {kind}"
  | metaDuplicate entry earlier => s!"metaspace entry {entry} duplicates entry {earlier}"
  | tableShape buckets entries size =>
    s!"lookup table with {buckets} buckets and {entries} entries in {size} bytes"
  | chainMisaligned offset => s!"lookup chain offset {offset} is misaligned"
  | chainOutside entry => s!"lookup chain entry {entry} out of range"
  | chainEndless => "lookup chain does not terminate"
  | versionsEndless offset => s!"version chain through {offset} does not terminate"
  | containerSection start => s!"container section at {start} overlaps the container header"
  | containerLink start next => s!"container at {start} links back to {next}"
  | containerChain offset count =>
    s!"container chain reaches {offset} after {count} containers"
  | containerCount declared found =>
    s!"header declares {declared} containers, chain holds {found}"
  | blobMisaligned start => s!"code blob offset {start} is misaligned"
  | blobHeader start => s!"code blob header at {start} runs past the code space"
  | blobOutside start size => s!"code blob at {start} with size {size} runs past the code space"
  | blobSize start size => s!"code blob at {start} has size {size}"
  | blobSection name start finish blob size =>
    s!"{name} section [{start}, {finish}) of code blob at {blob} is outside [88, {size})"
  | relocationKind code site => s!"relocation kind {code} at offset {site} out of range"
  | tagMisaligned start => s!"aux cursor {start} is misaligned"
  | tagShort start r =>
    s!"aux record at {start} is truncated: FormatError: Truncated: {r.message}"
  | tagCode code start => s!"aux tag {code} at {start} out of range"
  | tagReserved name start => s!"aux tag {name} at {start} is never written"
  | tagGlobal code start => s!"vm global kind {code} at {start} out of range"
  | tagText start fault => s!"string at {start} is not UTF-8: {fault.message}"
  | tagLoader start code => s!"aux record at {start} has loader {code}"
  | tagKnown index start => s!"known object {index} at {start} out of range"
  | tagState code start => s!"init state {code} at {start} out of range"
  | tagNotEnd position record =>
    s!"expected end of aux stream at {position}, found {record.describe}"
  | tagIndex record start count =>
    s!"{record.describe} at {start} outside metaspace of {count}"
  | stackMapSize declared held =>
    s!"oop map set declares {declared} bytes, section holds {held}"
  | stackMapData entry => s!"oop map {entry} data runs past its section"
  | records fault => s!"Failed to decode records: {fault.message}"
  | dependencyIndex index count =>
    s!"dependency index {index} outside metadata array of {count}"
  | dependencyNoEntry index => s!"dependency index {index} has no metadata"
  | dependencyArity position => s!"dependency missing argument {position}"
  | dependencyContext => "implicit dependency context without a following argument"
  | dependencyNoClass index => s!"dependency argument {index} is not a class"
  | dependencyNoMethod index => s!"dependency argument {index} is not a method"
  | optIndex index count => s!"opt record index {index} outside metadata array of {count}"
  | optNoEntry index => s!"opt record meta index {index} has no entry"
  | optNoMethod index => s!"opt record meta index {index} is not a method"
  | optNoClass index => s!"opt record meta index {index} is not a class"
  | namesMethod index => s!"meta index {index} names a method, expected a class"
  | namesClass index => s!"meta index {index} names a class, expected a method"
  | metadataPosition record => s!"{record.describe} in a metadata position"
  | oopPosition record => s!"{record.describe} in an oop position"
  | streamEnds site => s!"relocation stream ends before the site at {site}"
  | streamOverruns => "relocation stream has more values than were pre-revived"
  | globalSite record site => s!"{record.describe} at site {site}, expected vm_global"
  | metadataAtOopSite site => s!"pre-revived metadata consumed by the oop site at {site}"
  | oopSite record site => s!"{record.describe} at oop site {site}"
  | objectAtMetadataSite site => s!"pre-revived object consumed by the metadata site at {site}"
  | metadataSite record site => s!"{record.describe} at metadata site {site}"
  | arrayIndex what index count => s!"{what} index {index} outside array of {count}"
  | pollSite record site => s!"{record.describe} at poll site {site}"
  | internalSite record site codeSize =>
    s!"{record.describe} at internal site {site} of {codeSize} code bytes"
  | valuesUnused count => s!"{count} pre-revived values left unused"
  | reindexedSize size room =>
    s!"rewritten aux stream of {size} bytes does not fit {room} bytes"

/-! ## Options -/

inductive OptionFault where
  | emptyToken (options : String)
  | logShape (value : String)
  | logKind (name : String)
  | logLevel (name : String)
  | mergePolicy (name : String)
  | unrecognized (token : String)
  | path (key : String)
  | leadingZero (key value : String)
  | noInteger (key value : String)
  | range (key : String) (value low high : Nat)
  | sizeUnit
  | revivePolicy (name : String)
  | policyArgument (value : String)
  | mergeCombined
  | percentCombined
  | noFile
  | noInputs
  | versionLimit (value limit : Nat)
  | sizeLimit
  | saveDisabled
  | mergeDisabled
  | inputsMissing
  | inputsEmpty
  | inputsUnreadable
  | outputMissing
  deriving DecidableEq, Repr

def OptionFault.message : OptionFault → String
  | emptyToken options => s!"empty option in \"{options}\""
  | logShape value => s!"log option needs kind=level, got \"{value}\""
  | logKind name => s!"unknown log kind \"{name}\""
  | logLevel name => s!"unknown log level \"{name}\""
  | mergePolicy name => s!"unknown merge policy \"{name}\""
  | unrecognized token => s!"unrecognized option \"{token}\""
  | path key => s!"{key} needs a path"
  | leadingZero key value => s!"{key} leading zero at \"{value}\""
  | noInteger key value => s!"{key} no integer at \"{value}\""
  | range key value low high => s!"{key} {value} out of range [{low}:{high}]"
  | sizeUnit => "max_file_size must end with M or G"
  | revivePolicy name => s!"unknown revive_policy \"{name}\""
  | policyArgument value => s!"only appoint takes an argument, got \"{value}\""
  | mergeCombined => "merge can not be combined with save or restore"
  | percentCombined => "percent can not be combined with merge"
  | noFile => "no file specified"
  | noInputs => "merge needs input_files or input_list_file"
  | versionLimit value limit => s!"max_nmethod_versions {value} out of range [1:{limit}]"
  | sizeLimit => "max_file_size must be at least 1M"
  | saveDisabled => "save is not enabled"
  | mergeDisabled => "merge is not enabled"
  | inputsMissing => "merge needs input_files= or input_list_file="
  | inputsEmpty => "no input cache files found"
  | inputsUnreadable => "no readable input cache files"
  | outputMissing => "merge needs file= for the output"

/-! ## All failures -/

inductive InternalFault where
  | patchRange (offset size : Nat)
  | codeSpaceFull (size : Nat)
  | unopenable (path : String)
  | unmappable (path : String)
  | unreadable (path : String)
  | logFile (path : String)
  | reviveFailed (name : String)
  | containerGone (container : Nat)
  | notCollected (index : UInt32)
  | noMapping (index : UInt32)
  deriving DecidableEq, Repr

def InternalFault.message : InternalFault → String
  | patchRange offset size => s!"patch at {offset} past end {size}"
  | codeSpaceFull size => s!"code space would grow to {size} bytes"
  | unopenable path => s!"Failed to open cache file {path}"
  | unmappable path => s!"Failed to map cache file {path}"
  | unreadable path => s!"Failed to read cache file {path}"
  | logFile path => s!"Failed to create log file {path}"
  | reviveFailed name => s!"revive of {name} failed"
  | containerGone container => s!"container {container} vanished"
  | notCollected index => s!"meta index {index} was not collected"
  | noMapping index => s!"no mapping for {index}"

inductive Error where
  | format (fault : FormatFault)
  | fingerprintMismatch (setting : String)
  | unresolved (cause : Unresolved)
  | dependencyViolated (cause : Violation)
  | optRejected (cause : Rejection)
  | corruption (cause : Corruption)
  | config (cause : OptionFault)
  | fileTooLarge (size limit : Nat)
  | internal (cause : InternalFault)
  | io

def StringFault.message : StringFault → String
  | short r => s!"FormatError: Truncated: {r.message}"
  | malformed offset fault => s!"CorruptionError: {(Corruption.string offset fault).message}"

def FormatFault.message : FormatFault → String
  | short r => r.message
  | badMagic expected found => s!"expected {hex expected}, got {hex found}"
  | badIdentity fault => s!"build identity: {fault.message}"
  | sizeMismatch declared actual => s!"header declares {declared} bytes, file has {actual}"
  | sectionOutside => "container or metaspace section outside the file"
  | containerCount count => s!"{count} containers"
  | noCache size => s!"{size} bytes is no cache file"
  | otherBuild found expected =>
    "file built by '" ++ found ++ "', running '" ++ expected ++ "'"

namespace Error

def message : Error → String
  | format fault => s!"FormatError: {fault.kind.name}: {fault.message}"
  | fingerprintMismatch setting => s!"FingerprintMismatch: different setting of {setting}"
  | unresolved cause => s!"UnresolvedError: {cause.message}"
  | dependencyViolated cause => s!"DependencyViolated: {cause.message}"
  | optRejected cause => s!"OptRejected: {cause.message}"
  | corruption cause => s!"CorruptionError: {cause.message}"
  | config cause => s!"ConfigError: {cause.message}"
  | fileTooLarge size limit => s!"FileTooLarge: {size} bytes exceeds limit of {limit} bytes"
  | internal cause => s!"InternalError: {cause.message}"
  | io => "IOError"

def className : Error → String
  | format _ => "Format"
  | fingerprintMismatch _ => "FingerprintMismatch"
  | unresolved _ => "Unresolved"
  | dependencyViolated _ => "DependencyViolated"
  | optRejected _ => "OptRejected"
  | corruption _ => "Corruption"
  | config _ => "Config"
  | fileTooLarge .. => "FileTooLarge"
  | internal _ => "InternalError"
  | io => "IoError"

def isCorruption : Error → Bool
  | corruption _ => true
  | _ => false

def isRecoverable : Error → Bool
  | fingerprintMismatch _ => true
  | unresolved _ => true
  | dependencyViolated _ => true
  | optRejected _ => true
  | _ => false

def short (offset wanted size : Nat) : Error :=
  format (.short ⟨offset, wanted, size⟩)

def ofString : StringFault → Error
  | .short r => format (.short r)
  | .malformed offset fault => corruption (.string offset fault)

end Error

/-- Work whose failure is an answer; what it did stays done. -/
def attempt {σ α : Type} (work : EStateM Error σ α) : EStateM Error σ (Except Error α) := fun s =>
  match work s with
  | .ok a s => .ok (.ok a) s
  | .error e s => .ok (.error e) s

end CodeCache
