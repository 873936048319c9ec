import Mathlib.Tactic.Common

namespace Library.Hashing

abbrev Bytes := List UInt8

-- A hash that takes its input in chunks, wherever these are cut.
structure Hasher where
  State : Type
  fresh : State
  update : State → Bytes → State
  hexdigest : State → String
  streams : ∀ chunks : List Bytes,
    hexdigest (chunks.foldl update fresh) = hexdigest (update fresh chunks.flatten)

def Hasher.hash (h : Hasher) (bytes : Bytes) : String := h.hexdigest (h.update h.fresh bytes)

-- The reads of a file, `size` bytes at a time; `fuel` bounds their number.
def reads (size : ℕ) : ℕ → Bytes → List Bytes
  | 0, _ => []
  | fuel + 1, bytes => if bytes = [] then [] else bytes.take size :: reads size fuel (bytes.drop size)

theorem flatten_reads {size : ℕ} (hsize : 0 < size) (fuel : ℕ) (bytes : Bytes) (hfuel : bytes.length ≤ fuel) :
    (reads size fuel bytes).flatten = bytes := by
  induction fuel generalizing bytes with
  | zero => rw [List.eq_nil_of_length_eq_zero (Nat.le_zero.mp hfuel), reads, List.flatten_nil]
  | succ fuel ih =>
      rw [reads]
      split
      · rename_i hnil
        rw [hnil, List.flatten_nil]
      · rename_i hne
        have hpos := List.length_pos_iff.mpr hne
        rw [List.flatten_cons, ih _ (by rw [List.length_drop]; omega), List.take_append_drop]

-- The loop that hashes and counts.
def hashChunk (h : Hasher) (state : h.State × ℕ) (chunk : Bytes) : h.State × ℕ :=
  (h.update state.1 chunk, state.2 + chunk.length)

theorem foldl_hashChunk (h : Hasher) (chunks : List Bytes) (state : h.State) (size : ℕ) :
    chunks.foldl (hashChunk h) (state, size) = (chunks.foldl h.update state, size + chunks.flatten.length) := by
  induction chunks generalizing state size with
  | nil => rfl
  | cons chunk chunks ih =>
      rw [List.foldl_cons, hashChunk, ih, List.foldl_cons, List.flatten_cons, List.length_append, Nat.add_assoc]

def hashChunks (h : Hasher) (chunks : List Bytes) : ℕ × String :=
  let (state, size) := chunks.foldl (hashChunk h) (h.fresh, 0)
  (size, h.hexdigest state)

theorem hashChunks_eq (h : Hasher) (chunks : List Bytes) :
    hashChunks h chunks = (chunks.flatten.length, h.hash chunks.flatten) := by
  simp only [hashChunks, foldl_hashChunk, Nat.zero_add, h.streams, Hasher.hash]

end Library.Hashing
