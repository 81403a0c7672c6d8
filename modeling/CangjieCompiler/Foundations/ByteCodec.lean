import Mathlib.Control.Monad.Basic
import Mathlib.Data.List.Forall2
import Mathlib.Tactic.Ring

/-!
# Writing to and reading from bytes

A writer is a function to lists of bytes, a reader consumes bytes from the front of a list and
fails past its end.  `Reads r bytes a` says that the reader `r` consumes exactly `bytes` and
returns `a`, whatever follows.  Readers are composed, and the rules below compose what they read.
-/

namespace ByteCodec

/-- A reader of values of type `α`. -/
abbrev Reader (α : Type) := StateT (List UInt8) Option α

variable {α β : Type}

/-! ## Writers and readers -/

/-- The low bytes of a number, the least significant one first. -/
def writeLE : ℕ → ℕ → List UInt8
  | 0, _ => []
  | k + 1, v => UInt8.ofNat v :: writeLE k (v / 256)

/-- The next byte. -/
def readByte : Reader UInt8
  | [] => none
  | b :: bytes => some (b, bytes)

/-- A number of `k` bytes, the least significant one first. -/
def readLE : ℕ → Reader ℕ
  | 0 => pure 0
  | k + 1 => do
    let b ← readByte
    let v ← readLE k
    pure (b.toNat + 256 * v)

/-- The results of reading `n` times. -/
def readMany (r : Reader α) : ℕ → Reader (List α)
  | 0 => pure []
  | n + 1 => do
    let a ← r
    let as ← readMany r n
    pure (a :: as)

/-- The reader consumes exactly the given bytes and returns the given value. -/
def Reads (r : Reader α) (bytes : List UInt8) (a : α) : Prop :=
  ∀ rest, r (bytes ++ rest) = some (a, rest)

/-! ## The rules of reading -/

theorem Reads.pure (a : α) : Reads (Pure.pure a) [] a := fun _ => rfl

theorem Reads.bind {r : Reader α} {f : α → Reader β} {bytes bytes' : List UInt8} {a : α} {b : β}
    (hr : Reads r bytes a) (hf : Reads (f a) bytes' b) : Reads (r >>= f) (bytes ++ bytes') b := by
  intro rest
  have hbind : (r >>= f) (bytes ++ bytes' ++ rest) =
      (r (bytes ++ bytes' ++ rest)).bind fun p => f p.1 p.2 := rfl
  rw [hbind, List.append_assoc, hr, Option.bind_some]
  exact hf rest

/-- A reader that stops with a computed value. -/
theorem Reads.map {r : Reader α} {f : α → β} {bytes : List UInt8} {a : α} (hr : Reads r bytes a) :
    Reads (r >>= fun x => Pure.pure (f x)) bytes (f a) := by
  have h := hr.bind (f := fun x => Pure.pure (f x)) (Reads.pure (f a))
  rwa [List.append_nil] at h

theorem reads_readByte (b : UInt8) : Reads readByte [b] b := fun _ => rfl

theorem reads_readLE (k v : ℕ) : Reads (readLE k) (writeLE k v) (v % 256 ^ k) := by
  induction k generalizing v with
  | zero =>
    rw [pow_zero, Nat.mod_one]
    exact Reads.pure 0
  | succ k ih =>
    have hvalue : v % 256 ^ (k + 1) = (UInt8.ofNat v).toNat + 256 * (v / 256 % 256 ^ k) := by
      rw [pow_succ', Nat.mod_mul, UInt8.toNat_ofNat']
    rw [hvalue]
    exact (reads_readByte _).bind (ih (v / 256)).map

/-- A number that fits is read back unchanged. -/
theorem reads_readLE_of_lt {k v : ℕ} (h : v < 256 ^ k) : Reads (readLE k) (writeLE k v) v := by
  have hread := reads_readLE k v
  rwa [Nat.mod_eq_of_lt h] at hread

/-- Reading as many times as something was written returns all values. -/
theorem reads_readMany {γ : Type} {r : Reader α} {write : γ → List UInt8} {back : γ → α}
    {items : List γ} (h : ∀ c ∈ items, Reads r (write c) (back c)) :
    Reads (readMany r items.length) (items.flatMap write) (items.map back) := by
  induction items with
  | nil => exact Reads.pure []
  | cons c items ih =>
    have hrest := ih fun d hd => h d (List.mem_cons_of_mem c hd)
    rw [List.flatMap_cons, List.map_cons, List.length_cons]
    exact (h c List.mem_cons_self).bind hrest.map

/-- A string of bytes is read back byte by byte. -/
theorem reads_bytes (bytes : List UInt8) : Reads (readMany readByte bytes.length) bytes bytes := by
  have h : Reads (readMany readByte bytes.length) (bytes.flatMap fun b => [b]) (bytes.map id) :=
    reads_readMany fun b _ => reads_readByte b
  rwa [List.flatMap_singleton', List.map_id] at h

end ByteCodec
