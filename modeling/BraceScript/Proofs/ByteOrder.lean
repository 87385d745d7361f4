import BraceScript.Proofs.Token.Cut
import Mathlib.Algebra.Group.Nat.Defs

/-!
# Proofs/ByteOrder — the order of texts by their bytes

A character is encoded as its number in base 64: the last digits have a byte each, and what is above
them is in the first byte, counted from a base that tells how many digits follow (`Encodes`).
Numbers with as many digits compare as their digits do, from the first (`digitBytes_append_lt`), and
a character with more of them has a greater first byte (`Encodes.alike_or_lt`).  So the first
character that differs decides, whatever comes after it (`utf8_lt_utf8`).
-/

namespace BraceScript

theorem ofNat_cons_lt {a b : Nat} (h : a < b) (hb : b < 256) (x y : List UInt8) :
    UInt8.ofNat a :: x < UInt8.ofNat b :: y := by
  refine List.Lex.rel ?_
  rw [UInt8.lt_iff_toNat_lt, UInt8.toNat_ofNat', UInt8.toNat_ofNat']
  omega

/-- A number in base 64: a byte for each of its last digits, after one for what is above them. -/
def digitBytes (base : Nat) : Nat → Nat → List UInt8
  | 0, v => [UInt8.ofNat (v + base)]
  | count + 1, v => digitBytes base count (v / 64) ++ [UInt8.ofNat (v % 64 + 128)]

theorem digitBytes_eq_cons (base count v : Nat) :
    ∃ bytes, digitBytes base count v = UInt8.ofNat (v / 64 ^ count + base) :: bytes := by
  induction count generalizing v with
  | zero => exact ⟨[], by rw [Nat.pow_zero, Nat.div_one, digitBytes]⟩
  | succ count ih =>
    obtain ⟨bytes, hbytes⟩ := ih (v / 64)
    rw [Nat.div_div_eq_div_mul, ← Nat.pow_succ'] at hbytes
    exact ⟨_, by rw [digitBytes, hbytes, List.cons_append]⟩

/-- **The digits of a lower number come first**, whatever follows either of them. -/
theorem digitBytes_append_lt {base count v w : Nat} (h : v < w) (hw : w / 64 ^ count + base < 256)
    (x y : List UInt8) : digitBytes base count v ++ x < digitBytes base count w ++ y := by
  induction count generalizing v w x y with
  | zero =>
    rw [Nat.pow_zero, Nat.div_one] at hw
    exact ofNat_cons_lt (Nat.add_lt_add_right h base) hw x y
  | succ count ih =>
    rw [digitBytes, digitBytes, List.append_assoc, List.append_assoc]
    rcases Nat.lt_or_eq_of_le (Nat.div_le_div_right (c := 64) h.le) with hlt | heq
    · refine ih hlt ?_ _ _
      rwa [Nat.div_div_eq_div_mul, ← Nat.pow_succ']
    · rw [heq]
      exact List.append_left_lt (ofNat_cons_lt (by omega) (by omega) x y)

/-- **The numbers of characters by the length of their encoding**: the base of the first byte, how
many bytes follow, and the number. -/
inductive Encodes : Nat → Nat → Nat → Prop
  | one {v : Nat} : v < 0x80 → Encodes 0 0 v
  | two {v : Nat} : 0x80 ≤ v → v < 0x800 → Encodes 0xc0 1 v
  | three {v : Nat} : 0x800 ≤ v → v < 0x10000 → Encodes 0xe0 2 v
  | four {v : Nat} : 0x10000 ≤ v → v < 0x110000 → Encodes 0xf0 3 v

namespace Encodes

variable {base count base' count' v w : Nat}

theorem first_lt (h : Encodes base count v) : v / 64 ^ count + base < 256 := by
  cases h <;> omega

/-- Of two characters with encodings of different length, the higher one has the greater first
byte. -/
theorem alike_or_lt (hv : Encodes base count v) (hw : Encodes base' count' w) (h : v < w) :
    (base = base' ∧ count = count') ∨ v / 64 ^ count + base < w / 64 ^ count' + base' := by
  cases hv <;> cases hw <;> omega

end Encodes

/-- **Every character is encoded as a first byte with digits after it**, in one of four forms. -/
theorem exists_encodes (c : Char) : ∃ base count, Encodes base count c.val.toNat ∧
    String.utf8EncodeChar c = digitBytes base count c.val.toNat := by
  have hmax : c.val.toNat < 0x110000 := by grind [c.valid]
  unfold String.utf8EncodeChar
  generalize c.val.toNat = v at hmax
  have htwice : v / 4096 = v / 64 / 64 := by omega
  have hthrice : v / 262144 = v / 64 / 64 / 64 := by omega
  dsimp only
  -- The bounds on the number make the remainder in the first byte superfluous.
  split_ifs with hone htwo hthree
  · exact ⟨0, 0, .one (by omega), rfl⟩
  · refine ⟨0xc0, 1, .two (by omega) (by omega), ?_⟩
    rw [Nat.mod_eq_of_lt (by omega : v / 64 < 32)]
    rfl
  · refine ⟨0xe0, 2, .three (by omega) (by omega), ?_⟩
    rw [Nat.mod_eq_of_lt (by omega : v / 4096 < 16), htwice]
    rfl
  · refine ⟨0xf0, 3, .four (by omega) hmax, ?_⟩
    rw [Nat.mod_eq_of_lt (by omega : v / 262144 < 8), htwice, hthrice]
    rfl

/-- **The bytes of a lower character come first**, whatever follows either of them. -/
theorem utf8EncodeChar_append_lt {c d : Char} (h : c < d) (x y : List UInt8) :
    String.utf8EncodeChar c ++ x < String.utf8EncodeChar d ++ y := by
  have hlt : c.val.toNat < d.val.toNat := h
  obtain ⟨base, count, hc, hbytes⟩ := exists_encodes c
  obtain ⟨base', count', hd, hbytes'⟩ := exists_encodes d
  rw [hbytes, hbytes']
  rcases hc.alike_or_lt hd hlt with ⟨rfl, rfl⟩ | hfirst
  · exact digitBytes_append_lt hlt hd.first_lt x y
  · obtain ⟨bytes, hcons⟩ := digitBytes_eq_cons base count c.val.toNat
    obtain ⟨bytes', hcons'⟩ := digitBytes_eq_cons base' count' d.val.toNat
    rw [hcons, hcons']
    exact ofNat_cons_lt hfirst hd.first_lt _ _

/-- **Texts in the order of their characters are in the order of their bytes.** -/
theorem utf8_lt_utf8 {a b : List Char} (h : a < b) : utf8 a < utf8 b := by
  induction h with
  | @nil c text =>
    obtain ⟨byte, bytes, hbytes⟩ :=
      List.exists_cons_of_ne_nil (String.utf8EncodeChar_ne_nil (c := c))
    rw [utf8_cons, hbytes]
    exact List.nil_lt_cons byte _
  | rel hlt => exact utf8EncodeChar_append_lt hlt _ _
  | cons _ ih => exact List.append_left_lt ih

end BraceScript
