import CodeCache.Assumption.Dependency
import CodeCache.Assumption.Speculation
import CodeCache.Blob.Basic
import CodeCache.Code.Method
import CodeCache.Inspection.Host
import CodeCache.Tag.Stream

/-!
# Reports of compiled methods

A compiled method is reported with its code, its patch sites, its assumptions and its tables. The
sections of a blob that cannot be read are reported as their failures.
-/

namespace CodeCache

instance : ToReport Error where
  toReport e :=
    let kind : List (String × Report) := match e with
      | .format fault => [("kind", .text fault.kind.name)]
      | _ => []
    let wording : List (String × Report) := match e with
      | .io => []
      | e => [("message", .text e.message)]
    .object (("error", .text e.className) :: wording ++ kind)

instance {α : Type} [ToReport α] : ToReport (Except Error α) where
  toReport
    | .ok a => toReport a
    | .error e => toReport e

instance : ToReport Unit where
  toReport _ := .text "ok"

instance : ToReport DependencyKind where
  toReport kind := .text kind.name

instance : ToReport Dependency where
  toReport d := .list [toReport d.kind, toReport d.args]

instance : ToReport Speculation where
  toReport r := .object (("t", .text r.typeName) :: match r with
    | .deVirtual method bci first second morphism trap =>
      [("method", toReport method), ("bci", toReport bci), ("klass1", toReport first),
        ("klass2", toReport second), ("morphism", toReport morphism), ("trap", toReport trap)]
    | .inlined caller callee bci =>
      [("caller", toReport caller), ("callee", toReport callee), ("bci", toReport bci)]
    | .profiledReceiver method bci klass =>
      [("method", toReport method), ("bci", toReport bci), ("klass", toReport klass)]
    | .unstableIf method bci trap =>
      [("method", toReport method), ("bci", toReport bci), ("trap", toReport trap)]
    | .constantReplace klass offset type value =>
      [("klass", toReport klass), ("offset", toReport offset), ("type", toReport type),
        ("val", toReport value)])

def RelocKind.details : RelocKind → List Report
  | .oop index immediate => [toReport index, toReport immediate]
  | .metadata index immediate => [toReport index, toReport immediate]
  | .poll usesPage => [toReport usesPage]
  | .pollReturn usesPage => [toReport usesPage]
  | .virtualCall cachedValue => [toReport cachedValue]
  | .staticStub slot jump => [toReport slot, toReport jump]
  | _ => []

instance : ToReport Relocation where
  toReport r := .list (toReport r.offset :: .text r.kind.name :: r.kind.details)

instance : ToReport TagRecord where
  toReport
    | .global kind offset => .list [.text "vm_global", toReport kind, toReport offset]
    | .text s => .list [.text "oop_str", .text s]
    | .loaderObject l => .list [.text "oop_classloader", toReport l]
    | .knownObject o => .list [.text "global_oop", toReport o]
    | .selfMethod => .list [.text "self_method"]
    | .internalWord offset => .list [.text "internal_word", toReport offset]
    | .klass l index state =>
      .list [.text "klass_by_name", toReport l, toReport index, toReport state]
    | .mirror l index state =>
      .list [.text "mirror_by_name", toReport l, toReport index, toReport state]
    | .method l index => .list [.text "method_by_name", toReport l, toReport index]
    | .skip => .list [.text "skip"]
    | .nonOop => .list [.text "non_oop"]
    | .finish => .list [.text "end"]

def TagStream.report (space : MetaSpace) (bs : Bytes) : Report :=
  .object [
    ("records", toReport (decode bs)), ("print", toReport (print space.name "  " bs)),
    ("indexes", toReport (metaIndices bs)), ("global_oops", toReport (knownObjects bs)),
    ("names", toReport (names space bs)), ("resolve", toReport (checkIndices space.size bs))]

instance : ToReport StackMap where
  toReport m := .list [toReport m.pcOffset, toReport m.valueCount, toReport m.data]

instance : ToReport CompiledMethod where
  toReport nm := .object [
    ("method", toReport nm.method), ("code", toReport nm.code), ("base", toReport nm.base),
    ("entry", toReport nm.entry), ("verified_entry", toReport nm.verifiedEntry),
    ("relocs", toReport nm.relocations), ("oops", toReport nm.oops),
    ("metadata", toReport nm.metadata), ("oop_maps", toReport nm.stackMaps),
    ("deps", toReport nm.dependencies), ("opts", toReport nm.speculations),
    ("level", toReport nm.level), ("osr", toReport nm.isOsr),
    ("call_site", toReport nm.hasCallSiteTarget), ("size", toReport nm.code.length)]

def Blob.brief (b : Blob) : Report :=
  .list [toReport b.offset, toReport b.bytes.length, toReport b.code.length,
    toReport b.header.methodIndex, toReport b.header.next?]

def Blob.report (name : UInt32 → String) (b : Blob) : Report :=
  let h := b.header
  .object [
    ("offset", toReport b.offset), ("size", toReport b.bytes.length),
    ("method_index", toReport h.methodIndex), ("next", toReport h.next?),
    ("entries", toReport [h.entry, h.verifiedEntry]),
    ("counts", toReport [h.oopCount, h.metaCount]), ("code", toReport b.code),
    ("relocs", toReport b.relocations), ("deps", toReport b.dependencies),
    ("opts", toReport b.speculations), ("aux_meta", toReport b.tagMeta),
    ("aux_oop", toReport b.tagOop), ("aux_reloc", toReport b.tagReloc),
    ("oop_maps", toReport b.stackMaps), ("print", toReport (b.print name))]

end CodeCache
