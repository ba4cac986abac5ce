import PrimaryElection.Lib.CInt

/-! The part of cJSON.h that the request parsers use. A parsed value is a scalar
(false, true, null or a number), a string, an array or an object; the accessors
follow the comments of the header. The string of a node is absent unless the node
is a string, and a lookup in an object ignores case. Doubles are a parameter. -/

namespace PrimaryElection.Framework

open CInt

/-- A C string: its bytes before the terminating zero. -/
structure CStr where
  bytes : List UInt8
  nonzero : 0 ∉ bytes
  deriving DecidableEq

/-- The bytes of an ASCII literal of the source. -/
def lit (s : String) : List UInt8 := s.toList.map fun c => UInt8.ofNat c.toNat

def CStr.ofLit (s : String) : CStr := ⟨(lit s).filter (· ≠ 0), by simp⟩

/-- The tree that `cJSON_Parse` returns. -/
inductive Json (D : Type) where
  | scalar (valueint : I32) (valuedouble : D)
  | string (valuestring : CStr)
  | array (child : List (Json D))
  | object (child : List (List UInt8 × Json D))

namespace Json

variable {D : Type}

/-- The item's string, absent for every other type. -/
def valuestring : Json D → Option CStr
  | .string s => some s
  | _ => none

/-- The item's number; nodes that hold none are created zeroed. -/
def valueint : Json D → I32
  | .scalar i _ => i
  | _ => i32 0

def valuedouble [Zero D] : Json D → D
  | .scalar _ d => d
  | _ => 0

/-- The chain of items of an array or object. -/
def items : Json D → List (Json D)
  | .array xs => xs
  | .object kvs => kvs.map Prod.snd
  | _ => []

/-- Returns the number of items in an array (or object). -/
def getArraySize (j : Json D) : ℕ := j.items.length

def toLower (b : UInt8) : UInt8 := if 65 ≤ b ∧ b ≤ 90 then b + 32 else b

/-- Equality of names that ignores case. -/
def sameName (a b : List UInt8) : Bool := a.map toLower == b.map toLower

/-- Get item `name` from an object. Case insensitive. -/
def getObjectItem (j : Json D) (name : String) : Option (Json D) :=
  match j with
  | .object kvs => (kvs.find? fun kv => sameName kv.1 (lit name)).map Prod.snd
  | _ => none

/-! ### Deciding what a tree holds -/

instance (v : Json D) : Decidable (∃ i d, v = .scalar i d) :=
  match v with
  | .scalar i d => isTrue ⟨i, d, rfl⟩
  | .string _ | .array _ | .object _ => isFalse (by rintro ⟨_, _, h⟩; cases h)

instance (v : Json D) : Decidable (∃ xs, v = .array xs) :=
  match v with
  | .array xs => isTrue ⟨xs, rfl⟩
  | .scalar _ _ | .string _ | .object _ => isFalse (by rintro ⟨_, h⟩; cases h)

instance (v : Json D) : Decidable (∃ kvs, v = .object kvs) :=
  match v with
  | .object kvs => isTrue ⟨kvs, rfl⟩
  | .scalar _ _ | .string _ | .array _ => isFalse (by rintro ⟨_, h⟩; cases h)

instance decidableIfThere (o : Option (Json D)) (p : Json D → Prop) [DecidablePred p] :
    Decidable (∀ v, o = some v → p v) :=
  match o with
  | none => isTrue fun _ h => nomatch h
  | some v => decidable_of_iff (p v) ⟨fun h _ hv => Option.some.inj hv ▸ h, fun h => h v rfl⟩

instance decidableThere (o : Option (Json D)) (p : Json D → Prop) [DecidablePred p] :
    Decidable (∃ v, o = some v ∧ p v) :=
  match o with
  | none => isFalse fun ⟨_, h, _⟩ => nomatch h
  | some v => decidable_of_iff (p v) ⟨fun h => ⟨v, rfl, h⟩, fun ⟨_, hv, h⟩ => Option.some.inj hv ▸ h⟩

end Json

/-! ### Conversion of decimal text -/

/-- The characters that `strtoul` skips before the number. -/
def isSpace (b : UInt8) : Bool := b = 32 ∨ (9 ≤ b ∧ b ≤ 13)

def isDigit (b : UInt8) : Bool := 48 ≤ b ∧ b ≤ 57

def digitsVal (bs : List UInt8) : ℕ :=
  (bs.takeWhile isDigit).foldl (fun v b => 10 * v + (b.toNat - 48)) 0

/-- `strtoul(x, NULL, 10)` with a 64-bit result: a value out of range gives the
largest one, a minus sign negates modulo 2^64. -/
def strtoul (bs : List UInt8) : UInt64 :=
  match bs.dropWhile isSpace with
  | 45 :: ds =>
    if digitsVal ds < 18446744073709551616 then -(UInt64.ofNat (digitsVal ds)) else (-1 : UInt64)
  | 43 :: ds =>
    if digitsVal ds < 18446744073709551616 then UInt64.ofNat (digitsVal ds) else (-1 : UInt64)
  | ds => if digitsVal ds < 18446744073709551616 then UInt64.ofNat (digitsVal ds) else (-1 : UInt64)

example : strtoul [32, 49, 50, 51, 97] = 123 := by decide

end PrimaryElection.Framework
