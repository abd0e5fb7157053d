/-!
# Kinds of runtime addresses

Compiled code refers to routines and tables of the host by address. A cache names each of them by a
kind, which means the same thing in every process of one build.
-/

namespace CodeCache

def globalKindNames : List String :=
  ["os::polling_page", "os::javaTimeMillis", "os::javaTimeNanos", "os::break_point",
    "heap::card_table_base", "heap::top_addr", "heap::end_addr", "universe::narrow_ptrs_base_addr",
    "opto::exception_blob", "opto::new_instance_Java", "opto::new_array_Java",
    "opto::new_array_nozero_Java", "opto::multianewarray2_Java", "opto::multianewarray3_Java",
    "opto::multianewarray4_Java", "opto::multianewarray5_Java", "opto::multianewarrayN_Java",
    "opto::g1_wb_pre_Java", "opto::g1_wb_post_Java", "opto::complete_monitor_locking_Java",
    "opto::rethrow_Java", "opto::slow_arraycopy_Java", "opto::register_finalizer_Java",
    "sr::g1_wb_pre", "sr::g1_wb_post", "sr::deopt_blob_unpack", "sr::ic_miss_blob",
    "sr::uncommon_trap_blob", "sr::complete_monitor_unlocking_C", "sr::dsin", "sr::dcos",
    "sr::dtan", "sr::dlog", "sr::dlog10", "sr::dexp", "sr::dpow", "sr::resolve_virtual_call_stub",
    "sr::resolve_opt_virtual_call_stub", "sr::resolve_static_call_stub",
    "stub::forward_exception_entry", "stub::catch_exception_entry",
    "stub::throw_AbstractMethodError_entry", "stub::throw_IncompatibleClassChangeError_entry",
    "stub::throw_NullPointerException_at_call_entry", "stub::throw_StackOverflowError_entry",
    "stub::atomic_xchg_entry", "stub::atomic_cmpxchg_entry", "stub::atomic_cmpxchg_long_entry",
    "stub::atomic_add_entry", "stub::fence_entry", "stub::jbyte_arraycopy",
    "stub::jshort_arraycopy", "stub::jint_arraycopy", "stub::jlong_arraycopy",
    "stub::oop_arraycopy", "stub::jbyte_disjoint_arraycopy", "stub::jint_disjoint_arraycopy",
    "stub::jlong_disjoint_arraycopy", "stub::oop_disjoint_arraycopy", "stub::checkcast_arraycopy",
    "stub::unsafe_arraycopy", "stub::generic_arraycopy", "stub::jbyte_fill", "stub::jshort_fill",
    "stub::jint_fill", "stub::zero_aligned_words", "stub::aescrypt_encryptBlock",
    "stub::aescrypt_decryptBlock", "stub::ghash_processBlocks", "stub::sha1_implCompress",
    "stub::sha256_implCompress", "stub::sha512_implCompress", "stub::updateBytesCRC32",
    "stub::crc_table_addr", "stub::multiplyToLen", "stub::squareToLen", "stub::mulAdd",
    "stub::montgomeryMultiply", "stub::montgomerySquare"]

structure GlobalKind where
  code : Fin 79
  deriving DecidableEq, Repr

namespace GlobalKind

theorem length_names : globalKindNames.length = 79 := rfl

def count : Nat := 79

def name (kind : GlobalKind) : String :=
  globalKindNames.get (kind.code.cast length_names.symm)

def all : List GlobalKind :=
  (List.finRange 79).map GlobalKind.mk

def toUInt16 (kind : GlobalKind) : UInt16 :=
  UInt16.ofNat kind.code.val

def ofCode? (raw : UInt16) : Option GlobalKind :=
  if h : raw.toNat < 79 then some ⟨⟨raw.toNat, h⟩⟩ else none

def ofName? (name : String) : Option GlobalKind :=
  all.find? (·.name == name)

def pollingPage : GlobalKind := ⟨0⟩

def resolveVirtualCall : GlobalKind := ⟨36⟩

def resolveOptVirtualCall : GlobalKind := ⟨37⟩

def resolveStaticCall : GlobalKind := ⟨38⟩

theorem toNat_toUInt16 (kind : GlobalKind) : kind.toUInt16.toNat = kind.code.val := by
  have := kind.code.isLt
  simp only [toUInt16, UInt16.toNat_ofNat']
  omega

theorem ofCode?_toUInt16 (kind : GlobalKind) : ofCode? kind.toUInt16 = some kind := by
  simp only [ofCode?, toNat_toUInt16, kind.code.isLt, dif_pos]

end GlobalKind

end CodeCache
