import Dowse.CStrings
import Mathlib.Algebra.Group.Nat.Defs

/-!
# Addresses in memory and in text

Addresses arrive in network order, the highest byte first. A host loads a word in its own order
and converts it with `ntohl`.
-/
namespace Dowse.Pgld
open CStrings

def bigEndian (a b c d : UInt8) : UInt32 :=
  UInt32.ofNat (((a.toNat * 256 + b.toNat) * 256 + c.toNat) * 256 + d.toNat)

/-- A 32-bit load from memory on this host. -/
def loadWord (little : Bool) (bytes : List UInt8) (i : ℕ) : UInt32 :=
  if little then
    bigEndian (bytes.getD (i + 3) 0) (bytes.getD (i + 2) 0) (bytes.getD (i + 1) 0) (bytes.getD i 0)
  else
    bigEndian (bytes.getD i 0) (bytes.getD (i + 1) 0) (bytes.getD (i + 2) 0) (bytes.getD (i + 3) 0)

def ntohl (little : Bool) (x : UInt32) : UInt32 :=
  if little then
    bigEndian x.toUInt8 (x >>> 8).toUInt8 (x >>> 16).toUInt8 (x >>> 24).toUInt8
  else x

def dotted (a b c d : UInt8) : Text :=
  ['.'].intercalate ([a, b, c, d].map fun x => Nat.toDigits 10 x.toNat)

def int2ip (ip : UInt32) : Text :=
  dotted (ip >>> 24).toUInt8 (ip >>> 16).toUInt8 (ip >>> 8).toUInt8 ip.toUInt8

theorem bigEndian_toNat (a b c d : UInt8) : (bigEndian a b c d).toNat =
    ((a.toNat * 256 + b.toNat) * 256 + c.toNat) * 256 + d.toNat := by
  have ha := a.toNat_lt
  have hb := b.toNat_lt
  have hc := c.toNat_lt
  have hd := d.toNat_lt
  rw [bigEndian, UInt32.toNat_ofNat']
  exact Nat.mod_eq_of_lt (by omega)

/-- The four bytes of a word, lowest first. -/
theorem word_bytes {a b c d : ℕ} (ha : a < 256) (hb : b < 256) (hc : c < 256) (hd : d < 256) :
    (((d * 256 + c) * 256 + b) * 256 + a) % 2 ^ 8 = a ∧
    (((d * 256 + c) * 256 + b) * 256 + a) / 2 ^ 8 % 2 ^ 8 = b ∧
    (((d * 256 + c) * 256 + b) * 256 + a) / 2 ^ 16 % 2 ^ 8 = c ∧
    (((d * 256 + c) * 256 + b) * 256 + a) / 2 ^ 24 % 2 ^ 8 = d := by
  omega

/-- Swapping undoes the order in which a little-endian host loads the bytes. -/
theorem ntohl_bigEndian (a b c d : UInt8) :
    ntohl true (bigEndian d c b a) = bigEndian a b c d := by
  have ha := a.toNat_lt
  have hb := b.toNat_lt
  have hc := c.toNat_lt
  have hd := d.toNat_lt
  apply UInt32.toNat_inj.mp
  simp only [ntohl, if_true, bigEndian_toNat, UInt32.toNat_toUInt8, UInt32.toNat_shiftRight,
    Nat.shiftRight_eq_div_pow]
  have h8 : UInt32.toNat 8 % 32 = 8 := rfl
  have h16 : UInt32.toNat 16 % 32 = 16 := rfl
  have h24 : UInt32.toNat 24 % 32 = 24 := rfl
  rw [h8, h16, h24]
  obtain ⟨e0, e1, e2, e3⟩ := word_bytes ha hb hc hd
  rw [e0, e1, e2, e3]

/-- The address that the bytes carry at this offset. -/
def addressAt (bytes : List UInt8) (i : ℕ) : UInt32 := loadWord false bytes i

/-- On either host the converted load is the address in the bytes. -/
theorem ntohl_loadWord (little : Bool) (bytes : List UInt8) (i : ℕ) :
    ntohl little (loadWord little bytes i) = addressAt bytes i := by
  cases little with
  | false => simp [ntohl, addressAt]
  | true => exact ntohl_bigEndian _ _ _ _

end Dowse.Pgld
