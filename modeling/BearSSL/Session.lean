import Mathlib.Data.List.Lex

namespace BearSSL

def sessionIdLen : Nat := 32

def masterSecretLen : Nat := 48

-- `memcmp`: bytes compared as unsigned values, the first difference deciding. The cache only
-- compares strings of `sessionIdLen` bytes, where the cases for unequal lengths never arise.
def memcmp : List UInt8 → List UInt8 → Ordering
  | [], [] => .eq
  | [], _ :: _ => .lt
  | _ :: _, [] => .gt
  | a :: as, b :: bs => (compare a.toNat b.toNat).then (memcmp as bs)

theorem List.compare_cons_cons [LinearOrder α] (a b : α) (as bs : List α) :
    compare (a :: as) (b :: bs) = (compare a b).then (compare as bs) := by
  rcases lt_trichotomy a b with h | rfl | h
  case inl =>
    have : (a :: as) < (b :: bs) := List.Lex.rel h
    simp [compare_lt_iff_lt.mpr this, compare_lt_iff_lt.mpr h, Ordering.then]
  case inr.inr =>
    have : (b :: bs) < (a :: as) := List.Lex.rel h
    simp [compare_gt_iff_gt.mpr this, compare_gt_iff_gt.mpr h, Ordering.then]
  case inr.inl =>
    rw [compare_eq_iff_eq.mpr rfl]
    rcases lt_trichotomy as bs with h | rfl | h
    case inl =>
      have : (a :: as) < (a :: bs) := List.Lex.cons h
      simp [compare_lt_iff_lt.mpr this, compare_lt_iff_lt.mpr h, Ordering.then]
    case inr.inl => simp only [compare_eq_iff_eq.mpr rfl, Ordering.then]
    case inr.inr =>
      have : (a :: bs) < (a :: as) := List.Lex.cons h
      simp [compare_gt_iff_gt.mpr this, compare_gt_iff_gt.mpr h, Ordering.then]

-- `memcmp` is the lexicographic order on the byte values.
theorem memcmp_eq_compare : ∀ as bs : List UInt8,
    memcmp as bs = compare (as.map UInt8.toNat) (bs.map UInt8.toNat)
  | [], [] => (compare_eq_iff_eq.mpr rfl).symm
  | [], _ :: _ => (compare_lt_iff_lt.mpr List.Lex.nil).symm
  | _ :: _, [] => (compare_gt_iff_gt.mpr List.Lex.nil).symm
  | a :: as, b :: bs => by simp [memcmp, List.compare_cons_cons, memcmp_eq_compare as bs]

-- A session ID as the client sent it, or as `mask_id` rewrote it: `SESSION_ID_LEN` bytes.
structure SessionId where
  bytes : List UInt8
  length_bytes : bytes.length = sessionIdLen
  deriving DecidableEq

structure MasterSecret where
  bytes : List UInt8
  length_bytes : bytes.length = masterSecretLen
  deriving DecidableEq

namespace SessionId

theorem toNats_injective : Function.Injective fun s : SessionId => s.bytes.map UInt8.toNat := by
  intro ⟨a, _⟩ ⟨b, _⟩ h
  cases List.map_injective_iff.mpr (fun _ _ => UInt8.toNat.inj) h
  rfl

instance : Ord SessionId := ⟨fun a b => memcmp a.bytes b.bytes⟩

-- Masked IDs are ordered as `find_node` orders them: by `memcmp`.
instance : LinearOrder SessionId :=
  LinearOrder.liftWithOrd' _ toNats_injective fun a b => memcmp_eq_compare a.bytes b.bytes

theorem compare_def (a b : SessionId) : compare a b = memcmp a.bytes b.bytes :=
  rfl

instance : Inhabited SessionId :=
  ⟨⟨List.replicate sessionIdLen 0, List.length_replicate ..⟩⟩

end SessionId

instance : Inhabited MasterSecret :=
  ⟨⟨List.replicate masterSecretLen 0, List.length_replicate ..⟩⟩

-- `br_ssl_session_parameters`, without `session_id_len`: the cache reads and writes the other
-- four fields only, and always `SESSION_ID_LEN` bytes of the ID.
structure Params where
  sessionId : SessionId
  version : UInt16
  cipherSuite : UInt16
  masterSecret : MasterSecret
  deriving DecidableEq

-- Sample sessions for runs on fixed inputs: ID `k, 0, …, 0`, master secret `k, …, k`.
def Params.ofByte (k : UInt8) : Params :=
  ⟨⟨k :: List.replicate 31 0, rfl⟩, 0x0303, k.toUInt16, ⟨List.replicate 48 k, rfl⟩⟩

end BearSSL
