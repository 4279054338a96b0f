import RustDogecoin.Hashes.Padding

/-!
# HMAC over any hash

`hashes/hmac.rs` is generic over the trait `Hash`.  `HashType` is what it uses of the trait, with the law that
pieces are taken in as their concatenation, and the keyed hash is that of RFC 2104 (`HashType.hmac_eq`).
-/

namespace RustDogecoin

/-- The trait `Hash` with its engine. -/
structure HashType where
  Engine : Type
  blockSize : ℕ
  engine : Engine
  input : Engine → Bytes → Engine
  fromEngine : Engine → Outcome Empty Bytes
  foldl_input : ∀ pieces : List Bytes, pieces.foldl input engine = input engine pieces.flatten

namespace HashType

/-- `Hash::hash`. -/
def hash (H : HashType) (data : Bytes) : Outcome Empty Bytes := H.fromEngine (H.input H.engine data)

/-- `HmacEngine`. -/
structure HmacEngine (H : HashType) where
  iengine : H.Engine
  oengine : H.Engine

namespace HmacEngine

variable {H : HashType}

variable (H) in
/-- `HmacEngine::new`. -/
def new (key : Bytes) : Outcome Empty (HmacEngine H) := do
  .require (H.blockSize ≤ 128) .assertion
  let key ← if H.blockSize < key.length then H.hash key else .ok key
  return {
    iengine := H.input H.engine ((Hmac.padKey 0x36 key).take H.blockSize)
    oengine := H.input H.engine ((Hmac.padKey 0x5c key).take H.blockSize) }

/-- `HmacEngine::input`. -/
def input (e : HmacEngine H) (buf : Bytes) : HmacEngine H := { e with iengine := H.input e.iengine buf }

/-- `Hmac::from_engine`. -/
def fromEngine (e : HmacEngine H) : Outcome Empty Bytes := do
  let ihash ← H.fromEngine e.iengine
  H.fromEngine (H.input e.oengine ihash)

end HmacEngine

variable (H : HashType)

/-- The keyed hash of a message that is taken in in pieces. -/
def hmac (key : Bytes) (pieces : List Bytes) : Outcome Empty Bytes := do
  let e ← HmacEngine.new H key
  (pieces.foldl HmacEngine.input e).fromEngine

/-! ## RFC 2104 -/

/-- The key or, if it is longer than a block, its digest, with zeros up to the end of a block. -/
def blockKey (key : Bytes) : Outcome Empty Bytes := do
  let key ← if H.blockSize < key.length then H.hash key else .ok key
  return key ++ List.replicate (H.blockSize - key.length) 0

/-- A block of the key with every byte of it changed. -/
def xorPad (key : Bytes) (pad : UInt8) : Bytes := List.zipWith (· ^^^ ·) key (List.replicate H.blockSize pad)

/-- `H((K xor opad) || H((K xor ipad) || m))`. -/
def rfc2104 (key m : Bytes) : Outcome Empty Bytes := do
  let k ← H.blockKey key
  let inner ← H.hash (H.xorPad k 0x36 ++ m)
  H.hash (H.xorPad k 0x5c ++ inner)

/-! ## The engine computes it -/

variable {H}

theorem foldl_input_input (x : Bytes) (pieces : List Bytes) :
    pieces.foldl H.input (H.input H.engine x) = H.input H.engine (x ++ pieces.flatten) := by
  have h := H.foldl_input (x :: pieces)
  rwa [List.foldl_cons, List.flatten_cons] at h

theorem input_input (x y : Bytes) : H.input (H.input H.engine x) y = H.input H.engine (x ++ y) := by
  have h := foldl_input_input (H := H) x [y]
  rwa [List.flatten_singleton] at h

/-- The pad of the engine is that of the standard. -/
theorem take_padKey (hB : H.blockSize ≤ 128) (pad : UInt8) (key : Bytes) :
    (Hmac.padKey pad key).take H.blockSize =
      H.xorPad (key ++ List.replicate (H.blockSize - key.length) 0) pad := by
  have hlen : (Hmac.padKey pad key).length = 128 := by
    simp only [Hmac.padKey, List.length_append, List.length_zipWith, List.length_replicate, List.length_drop]
    omega
  apply List.ext_getElem
  · simp only [xorPad, List.length_take, List.length_zipWith, List.length_append, List.length_replicate, hlen]
    omega
  · intro i hi _
    rw [List.length_take] at hi
    simp only [Hmac.padKey, xorPad, List.getElem_take, List.getElem_zipWith, List.getElem_append,
      List.getElem_replicate, List.getElem_drop, List.length_zipWith, List.length_replicate]
    by_cases hkey : i < key.length
    · rw [dif_pos (by omega), dif_pos hkey, UInt8.xor_comm]
    · rw [dif_neg (by omega), dif_neg hkey, UInt8.zero_xor]

theorem foldl_input_eq (e : HmacEngine H) (pieces : List Bytes) :
    pieces.foldl HmacEngine.input e = { e with iengine := pieces.foldl H.input e.iengine } := by
  induction pieces generalizing e with
  | nil => rfl
  | cons piece pieces ih => exact ih (e.input piece)

/-- What the engines of a key make of a message. -/
theorem fromEngine_padded (hB : H.blockSize ≤ 128) (k : Bytes) (pieces : List Bytes) :
    (pieces.foldl HmacEngine.input
      { iengine := H.input H.engine ((Hmac.padKey 0x36 k).take H.blockSize)
        oengine := H.input H.engine ((Hmac.padKey 0x5c k).take H.blockSize) }).fromEngine = (do
      let inner ← H.hash (H.xorPad (k ++ List.replicate (H.blockSize - k.length) 0) 0x36 ++ pieces.flatten)
      H.hash (H.xorPad (k ++ List.replicate (H.blockSize - k.length) 0) 0x5c ++ inner)) := by
  rw [foldl_input_eq, HmacEngine.fromEngine, take_padKey hB, take_padKey hB, foldl_input_input]
  simp only [input_input]
  rfl

/-- The keyed hash of the engine is that of the standard; larger blocks are refused. -/
theorem hmac_eq (key : Bytes) (pieces : List Bytes) :
    H.hmac key pieces = if H.blockSize ≤ 128 then H.rfc2104 key pieces.flatten else .panic .assertion := by
  split_ifs with hB
  · rw [hmac, HmacEngine.new, Outcome.require_of hB, Outcome.ok_bind, rfc2104, blockKey]
    split_ifs with hlong
    · cases hhash : H.hash key with
      | ok k => exact fromEngine_padded hB k pieces
      | err e => rfl
      | panic p => rfl
    · exact fromEngine_padded hB key pieces
  · rw [hmac, HmacEngine.new, Outcome.require, if_neg hB]
    rfl

end HashType

/-! ## The hashes -/

namespace Ripemd160

def hashType : HashType where
  Engine := HashEngine
  blockSize := BLOCK_SIZE
  engine := .default
  input := HashEngine.input
  fromEngine e := U8Array.toList <$> fromEngineChecked e
  foldl_input pieces := BlockEngine.foldl_input processBlock (by decide) _ pieces List.length_replicate

end Ripemd160

namespace Sha1

def hashType : HashType where
  Engine := HashEngine
  blockSize := BLOCK_SIZE
  engine := .default
  input := HashEngine.input
  fromEngine e := U8Array.toList <$> fromEngineChecked e
  foldl_input pieces := BlockEngine.foldl_input processBlock (by decide) _ pieces List.length_replicate

end Sha1

namespace Sha256

def hashType : HashType where
  Engine := HashEngine
  blockSize := BLOCK_SIZE
  engine := .default
  input := HashEngine.input
  fromEngine e := U8Array.toList <$> fromEngineChecked e
  foldl_input pieces := BlockEngine.foldl_input processBlock (by decide) _ pieces List.length_replicate

end Sha256

namespace Sha512

def hashType : HashType where
  Engine := HashEngine
  blockSize := BLOCK_SIZE
  engine := .default
  input := HashEngine.input
  fromEngine e := U8Array.toList <$> fromEngineChecked e
  foldl_input pieces := BlockEngine.foldl_input processBlock (by decide) _ pieces List.length_replicate

/-- Nothing overflows on a message that fits. -/
theorem fromEngineChecked_of_lt (pieces : List Bytes) (h : pieces.flatten.length < 2 ^ 61) :
    fromEngineChecked (pieces.foldl HashEngine.input .default) =
      .ok (fromEngine (pieces.foldl HashEngine.input .default)) := by
  have hdigest := fromEngineChecked_pieces pieces
  rw [if_pos h] at hdigest
  rw [fromEngine_of_checked hdigest, hdigest]

theorem hash_hashType {data : Bytes} (h : data.length < 2 ^ 61) :
    hashType.hash data = .ok (hash data).toList := by
  have hdigest := fromEngineChecked_of_lt [data] (by rwa [List.flatten_singleton])
  exact congrArg (U8Array.toList <$> ·) hdigest

end Sha512

namespace Hmac

/-- The engine of HMAC-SHA512 as one over any hash. -/
def HmacEngine.generic (e : HmacEngine) : HashType.HmacEngine Sha512.hashType := ⟨e.iengine, e.oengine⟩

theorem foldl_input_generic (e : HmacEngine) (pieces : List Bytes) :
    pieces.foldl HashType.HmacEngine.input e.generic = (pieces.foldl HmacEngine.input e).generic := by
  induction pieces generalizing e with
  | nil => rfl
  | cons piece pieces ih => exact ih (e.input piece)

theorem iengine_foldl_input (e : HmacEngine) (pieces : List Bytes) :
    pieces.foldl HmacEngine.input e = { e with iengine := pieces.foldl Sha512.HashEngine.input e.iengine } := by
  induction pieces generalizing e with
  | nil => rfl
  | cons piece pieces ih => exact ih (e.input piece)

theorem new_generic {key : Bytes} (hkey : key.length < 2 ^ 61) :
    HashType.HmacEngine.new Sha512.hashType key = .ok (HmacEngine.new key).generic := by
  have hassert : Sha512.hashType.blockSize ≤ 128 := le_refl 128
  rw [HashType.HmacEngine.new, Outcome.require_of hassert, Outcome.ok_bind, HmacEngine.new]
  by_cases hlong : Sha512.BLOCK_SIZE < key.length
  · have hlong' : Sha512.hashType.blockSize < key.length := hlong
    rw [if_pos hlong, if_pos hlong', Sha512.hash_hashType hkey]
    rfl
  · have hlong' : ¬Sha512.hashType.blockSize < key.length := hlong
    rw [if_neg hlong, if_neg hlong']
    rfl

theorem fromEngine_generic {e : HmacEngine}
    (hinner : Sha512.fromEngineChecked e.iengine = .ok (Sha512.fromEngine e.iengine))
    (houter : ∀ d : U8Array 64, Sha512.fromEngineChecked (Sha512.HashEngine.input e.oengine d.toList) =
      .ok (Sha512.fromEngine (Sha512.HashEngine.input e.oengine d.toList))) :
    e.generic.fromEngine = .ok (fromEngine e).toList := by
  show ((U8Array.toList <$> Sha512.fromEngineChecked e.iengine) >>= fun ihash =>
    U8Array.toList <$> Sha512.fromEngineChecked (Sha512.HashEngine.input e.oengine ihash)) = _
  rw [hinner, Outcome.map_ok, Outcome.ok_bind, houter, Outcome.map_ok]
  rfl

/-- HMAC-SHA512 is an instance, for keys and messages that fit. -/
theorem hmac_hashType {key : Bytes} {pieces : List Bytes} (hkey : key.length < 2 ^ 61)
    (hpieces : 128 + pieces.flatten.length < 2 ^ 61) :
    Sha512.hashType.hmac key pieces =
      .ok (fromEngine (pieces.foldl HmacEngine.input (HmacEngine.new key))).toList := by
  obtain ⟨x, y, hx, hy, hnew⟩ : ∃ x y : Bytes, x.length ≤ 128 ∧ y.length ≤ 128 ∧ HmacEngine.new key =
      ⟨Sha512.HashEngine.input .default x, Sha512.HashEngine.input .default y⟩ :=
    ⟨_, _, List.length_take_le 128 _, List.length_take_le 128 _, rfl⟩
  rw [HashType.hmac, new_generic hkey, Outcome.ok_bind, foldl_input_generic, hnew, iengine_foldl_input]
  refine fromEngine_generic ?_ fun d => ?_
  · refine Sha512.fromEngineChecked_of_lt (x :: pieces) ?_
    rw [List.flatten_cons, List.length_append]
    omega
  · refine Sha512.fromEngineChecked_of_lt [y, d.toList] ?_
    simp only [List.flatten_cons, List.flatten_nil, List.length_append, List.length_nil, d.length_eq]
    omega

end Hmac

/-- The hashes with an engine of their own. -/
def hashTypes : List HashType := [Ripemd160.hashType, Sha1.hashType, Sha256.hashType, Sha512.hashType]

/-- None of them has too large a block. -/
theorem hmac_eq_rfc2104 {H : HashType} (hH : H ∈ hashTypes) (key : Bytes) (pieces : List Bytes) :
    H.hmac key pieces = H.rfc2104 key pieces.flatten := by
  have hB : H.blockSize ≤ 128 := by
    simp only [hashTypes, List.mem_cons, List.not_mem_nil, or_false] at hH
    rcases hH with rfl | rfl | rfl | rfl <;> decide
  rw [H.hmac_eq, if_pos hB]

/-- A message that is taken in in pieces is padded as the standards say and hashed block by block, if its length in
bits fits into 64 bits, and HMAC is that of RFC 2104 over any hash with blocks of at most 128 bytes. -/
theorem digests_and_hmac_eq (H : HashType) (key : Bytes) (pieces : List Bytes) :
    (Ripemd160.fromEngineChecked (pieces.foldl Ripemd160.HashEngine.input .default) =
      if pieces.flatten.length < 2 ^ 61 then .ok (Ripemd160.ripemd160 pieces.flatten) else .panic .overflow) ∧
    (Sha1.fromEngineChecked (pieces.foldl Sha1.HashEngine.input .default) =
      if pieces.flatten.length < 2 ^ 61 then .ok (Sha1.sha1 pieces.flatten) else .panic .overflow) ∧
    (Sha512.fromEngineChecked (pieces.foldl Sha512.HashEngine.input .default) =
      if pieces.flatten.length < 2 ^ 61 then .ok (Sha512.sha512 pieces.flatten) else .panic .overflow) ∧
    H.hmac key pieces = if H.blockSize ≤ 128 then H.rfc2104 key pieces.flatten else .panic .assertion :=
  ⟨Ripemd160.fromEngineChecked_pieces pieces, Sha1.fromEngineChecked_pieces pieces,
    Sha512.fromEngineChecked_pieces pieces, H.hmac_eq key pieces⟩

/-- The length of a message of `2 ^ 61` bytes does not fit. -/
theorem fromEngineChecked_huge :
    ¬∀ pieces : List Bytes, Sha512.fromEngineChecked (pieces.foldl Sha512.HashEngine.input .default) =
      .ok (Sha512.sha512 pieces.flatten) := by
  intro h
  obtain ⟨m, hm⟩ : ∃ m : Bytes, m.length = 2 ^ 61 := ⟨List.replicate (2 ^ 61) 0, List.length_replicate⟩
  have hhuge := h [m]
  rw [Sha512.fromEngineChecked_pieces, List.flatten_singleton, if_neg (by omega)] at hhuge
  cases hhuge

end RustDogecoin
