import CodeCache.Cache.Save
import CodeCache.Inspection.Method
import CodeCache.Selection.Basic
import CodeCache.Statistics
import CodeCache.Store.File

/-!
# Reports of caches

The options of a cache, what it counts, what it holds, and how the versions of a method fare when
one is chosen.
-/

namespace CodeCache

instance : ToReport ReviveStatus where
  toReport status := .text status.name

instance : ToReport LogKind where
  toReport kind := .text kind.name

instance : ToReport LogLevel where
  toReport level := .text level.name

instance : ToReport Options where
  toReport o := .object [
    ("save", toReport o.save), ("restore", toReport o.restore), ("merge", toReport o.merge),
    ("print_opt", toReport o.printAssumptions), ("fatal_on_fail", toReport o.fatalOnFail),
    ("perf", toReport o.measure), ("validate_check", toReport o.checkBuild),
    ("disable_constant_opt", toReport o.disableConstantOpt),
    ("verify_redefined_identity", toReport o.checkIdentity),
    ("make_revive_fail_at_nmethod", toReport o.failInstall), ("file", toReport o.file),
    ("log_file", toReport o.logFile), ("input_files", toReport o.inputFiles),
    ("input_list_file", toReport o.inputListFile),
    ("log_levels", .list (o.logLevels.map fun (kind, level) =>
      .list [toReport kind, toReport level])),
    ("revive_policy", .text o.revivePolicy.name), ("merge_policy", .text o.mergePolicy.name),
    ("percent", toReport o.percent), ("coverage", toReport o.coverage),
    ("max_container_count", toReport o.maxContainers), ("max_versions", toReport o.maxVersions),
    ("max_file_size", .text (toString o.maxFileSize)),
    ("levels", toReport (LogKind.all.map o.logLevel)), ("directives", toReport o.logDirectives),
    ("costs", toReport [o.costs.virtualCall, o.costs.notInline, o.costs.receiverCheck,
      o.costs.cuttedIf, o.costs.testJump]),
    ("inactive", toReport o.isInactive)]

instance : ToReport Statistics where
  toReport s :=
    let count (status : ReviveStatus) : Report := .number (s.revives status).toNat
    .object [
      ("success", count .success), ("fail", count .fail), ("not_in_cache", count .notInCache),
      ("found_with_name", count .foundWithName), ("total", .number s.total.toNat),
      ("perf", toReport s.measure),
      ("sizes", .list (SizeKind.all.map fun kind =>
        .list [.text kind.name, .number (s.sizes kind).toNat])),
      ("timers", .list (TimerKind.all.map fun kind =>
        .list [.text kind.name, .number (s.timings kind).toNat]))]

instance : ToReport SiteValue where
  toReport
    | .null => .null
    | .object o => .object [("oop", toReport o)]
    | .entity e => .object [("meta", toReport e)]

instance : ToReport Resolved where
  toReport r := .object [
    ("metas", toReport r.metadata), ("oops", toReport r.oops), ("values", toReport r.values)]

instance : ToReport VersionState where
  toReport s := .object [
    ("version", toReport s.version), ("offset", toReport s.offset),
    ("checks", toReport s.checkBits), ("result", .text s.verdict.name),
    ("permanent", toReport s.verdict.isPermanent), ("valid", toReport s.isValid),
    ("score", toReport s.score), ("pre", toReport s.resolved),
    ("global_oops", toReport s.knownObjects)]

instance : ToReport Selection where
  toReport s := .object [
    ("selected", toReport s.selected), ("unusable", toReport s.unusable),
    ("disable", toReport s.disable), ("checked", toReport s.checked)]

instance : ToReport MetaSpace where
  toReport space := .object [
    ("len", toReport space.size), ("empty", toReport (space.size == 0)),
    ("keys", toReport space.keys), ("hex", toReport space.encode), ("print", toReport space.print)]

def Fingerprint.report (settings : Option Settings) (f : Fingerprint) : Report :=
  .object [
    ("flags", .list (f.flags.map fun (index, value) => .list [toReport index, toReport value])),
    ("size", toReport f.encodedSize), ("hex", toReport f.encode),
    ("print", toReport (f.print settings))]

def LookupTable.report (name : UInt32 → String) (t : LookupTable) : Report :=
  .object [
    ("len", toReport t.size), ("empty", toReport (t.size == 0)),
    ("buckets", toReport t.bucketCount),
    ("entries", .list (t.occupied.map fun (place, entry) =>
      .list [toReport entry.metaIndex.toUInt32, toReport (t.codeOffset? place)])),
    ("size", toReport t.encodedSize), ("hex", toReport t.encode),
    ("print", toReport (t.print name))]

instance : ToReport CodeSpace where
  toReport space := .object [
    ("len", toReport space.size), ("empty", toReport (space.size == 0)),
    ("hex", toReport space.bytes)]

def Container.report (space : MetaSpace) (settings : Option Settings) (c : Container) : Report :=
  .object [
    ("fingerprint", c.fingerprint.report settings),
    ("methods", .list (c.methods.map fun (index, head) =>
      .list [toReport index, toReport head, toReport (c.code.versionCount head)])),
    ("size", toReport c.encodedSize), ("print", toReport (c.print space settings))]

def CacheFile.report (settings : Option Settings) (f : CacheFile) : Report :=
  .object [
    ("size", toReport f.encodedSize), ("summary", f.summary), ("hex", toReport f.encode),
    ("print", toReport (f.print settings)), ("print_opt", toReport f.printAssumptions),
    ("path", toReport f.path)]

instance : ToReport SaveReport where
  toReport r := .object [
    ("methods", toReport r.methods), ("versions", toReport r.versions),
    ("skipped", toReport r.skipped), ("bytes", toReport r.bytes)]

instance : ToReport BlobPlace where
  toReport place := .list [
    toReport place.file, toReport place.container, toReport place.offset, toReport place.size]

instance : ToReport MethodVersion where
  toReport v := .object [
    ("id", toReport v.id), ("count", toReport v.count), ("cand", toReport v.place),
    ("opts", toReport v.speculations), ("deps", toReport v.dependencies)]

end CodeCache
