import Mathlib.Algebra.Order.Ring.Nat
import Mathlib.Tactic.Common

/-!
# Netlink attributes

An attribute is a header (its length in 16 bits, its type in 16 bits) and a
payload, and is padded to 4 bytes (`attr`). `parse` reads a sequence of them as
`nla_for_each_attr` does: it stops at the first header that does not fit what
is left.

* `parse_attr`: an attribute is read back, whatever follows it, if its length
  fits its field.
* `size_parse_le`: what has been read, the headers included, is not more than
  there was; `sum_found_le`, for attributes of different types.
-/

namespace Ubbd.Nla

/-! ## Words -/

/-- The low `w` bytes of `v`, the lowest first. -/
def leBytes : Nat → Nat → List UInt8
  | 0, _ => []
  | w + 1, v => UInt8.ofNat v :: leBytes w (v / 256)

def leValue : List UInt8 → Nat
  | [] => 0
  | b :: bs => b.toNat + 256 * leValue bs

/-- A word of `w` bytes, in the byte order of the host. -/
def word (big : Bool) (w v : Nat) : List UInt8 := if big then (leBytes w v).reverse else leBytes w v

def value (big : Bool) (bs : List UInt8) : Nat := if big then leValue bs.reverse else leValue bs

theorem length_leBytes (w v : Nat) : (leBytes w v).length = w := by
  induction w generalizing v with
  | zero => rfl
  | succ w ih => rw [leBytes, List.length_cons, ih]

@[simp] theorem length_word (big : Bool) (w v : Nat) : (word big w v).length = w := by
  cases big
  · exact length_leBytes w v
  · exact List.length_reverse.trans (length_leBytes w v)

theorem leValue_leBytes (w v : Nat) : leValue (leBytes w v) = v % 256 ^ w := by
  induction w generalizing v with
  | zero => rw [leBytes, leValue, Nat.pow_zero, Nat.mod_one]
  | succ w ih => rw [leBytes, leValue, ih, Nat.pow_succ', Nat.mod_mul, UInt8.toNat_ofNat']

/-- A word is its value, reduced to its width. -/
theorem value_word (big : Bool) (w v : Nat) : value big (word big w v) = v % 256 ^ w := by
  cases big
  · exact leValue_leBytes w v
  · exact (congrArg leValue (List.reverse_reverse _)).trans (leValue_leBytes w v)

/-! ## Sequences of attributes -/

/-- `NLA_ALIGN`. -/
def align (n : Nat) : Nat := (n + 3) / 4 * 4

/-- A header and a payload, padded; a length that does not fit is cut. -/
def attr (big : Bool) (type : Nat) (payload : List UInt8) : List UInt8 :=
  word big 2 (4 + payload.length) ++ (word big 2 type ++
    (payload ++ List.replicate (align payload.length - payload.length) 0))

/-- An attribute that was read. -/
structure Attr where
  type : Nat
  payload : List UInt8
  deriving DecidableEq

/-- At most `n` attributes of `bs`; `nla_type` leaves out two flags of the type. -/
def parseN (big : Bool) : Nat → List UInt8 → List Attr
  | 0, _ => []
  | n + 1, bs =>
    let len := value big (bs.take 2)
    if 4 ≤ bs.length ∧ 4 ≤ len ∧ len ≤ bs.length then
      ⟨value big ((bs.drop 2).take 2) % 2 ^ 14, (bs.take len).drop 4⟩ :: parseN big n (bs.drop (align len))
    else []

/-- The attributes of `bs`. -/
def parse (big : Bool) (bs : List UInt8) : List Attr := parseN big bs.length bs

/-- The payload of the first attribute of a type (`nla_find`). -/
def find (type : Nat) (as : List Attr) : Option (List UInt8) :=
  (as.find? fun a => a.type = type).map Attr.payload

/-- The first `w` bytes of a payload (`nla_get_u32` and the like). -/
def get (big : Bool) (w : Nat) (payload : List UInt8) : Option Nat :=
  if w ≤ payload.length then some (value big (payload.take w)) else none

variable {big : Bool}

theorem le_align (n : Nat) : n ≤ align n := by unfold align; omega

theorem align_of_mod {n : Nat} (h : n % 4 = 0) : align n = n := by unfold align; omega

@[simp] theorem length_attr (big : Bool) (type : Nat) (payload : List UInt8) :
    (attr big type payload).length = 4 + align payload.length := by
  have hle := le_align payload.length
  simp only [attr, List.length_append, length_word, List.length_replicate]
  omega

/-- One step of the parser. -/
theorem parseN_succ (n : Nat) (bs : List UInt8) : parseN big (n + 1) bs =
    if 4 ≤ bs.length ∧ 4 ≤ value big (bs.take 2) ∧ value big (bs.take 2) ≤ bs.length then
      ⟨value big ((bs.drop 2).take 2) % 2 ^ 14, (bs.take (value big (bs.take 2))).drop 4⟩ ::
        parseN big n (bs.drop (align (value big (bs.take 2))))
    else [] := rfl

/-- The bound on the number of attributes is no restriction. -/
theorem parseN_eq {n : Nat} {bs : List UInt8} (h : bs.length ≤ n) : parseN big n bs = parse big bs := by
  have hsame : ∀ n m (bs : List UInt8), bs.length ≤ n → bs.length ≤ m → parseN big n bs = parseN big m bs := by
    intro n
    induction n with
    | zero =>
      intro m bs hn _
      obtain rfl : bs = [] := List.length_eq_zero_iff.mp (by omega)
      cases m <;> rfl
    | succ n ih =>
      intro m bs hn hm
      cases m with
      | zero =>
        obtain rfl : bs = [] := List.length_eq_zero_iff.mp (by omega)
        rfl
      | succ m =>
        rw [parseN_succ, parseN_succ]
        split
        · have hle := le_align (value big (bs.take 2))
          rw [ih m _ (by rw [List.length_drop]; omega) (by rw [List.length_drop]; omega)]
        · rfl
  exact hsame n bs.length bs h (Nat.le_refl _)

theorem parse_nil : parse big [] = [] := rfl

theorem parse_eq (bs : List UInt8) : parse big bs =
    if 4 ≤ bs.length ∧ 4 ≤ value big (bs.take 2) ∧ value big (bs.take 2) ≤ bs.length then
      ⟨value big ((bs.drop 2).take 2) % 2 ^ 14, (bs.take (value big (bs.take 2))).drop 4⟩ ::
        parse big (bs.drop (align (value big (bs.take 2))))
    else [] := by
  rw [← parseN_eq (Nat.le_succ bs.length), parseN_succ]
  split
  · have hle := le_align (value big (bs.take 2))
    rw [parseN_eq (by rw [List.length_drop]; omega)]
  · rfl

/-! ## Reading back -/

/-- What is read of the header of an attribute, whatever its length. -/
theorem parse_attr_append (type : Nat) (payload rest : List UInt8) {len : Nat}
    (hlen : (4 + payload.length) % 2 ^ 16 = len) :
    parse big (attr big type payload ++ rest) =
      if 4 ≤ len then
        ⟨type % 2 ^ 14, ((attr big type payload ++ rest).take len).drop 4⟩ ::
          parse big ((attr big type payload ++ rest).drop (align len))
      else [] := by
  have hbytes : attr big type payload ++ rest = word big 2 (4 + payload.length) ++ (word big 2 type ++
      (payload ++ List.replicate (align payload.length - payload.length) 0 ++ rest)) := by
    simp only [attr, List.append_assoc]
  have hvalue : value big ((attr big type payload ++ rest).take 2) = len := by
    rw [hbytes, List.take_left' (length_word ..), value_word]
    exact hlen
  have htype : value big (((attr big type payload ++ rest).drop 2).take 2) % 2 ^ 14 = type % 2 ^ 14 := by
    rw [hbytes, List.drop_left' (length_word ..), List.take_left' (length_word ..), value_word]
    omega
  have hle := le_align payload.length
  rw [parse_eq, hvalue, htype, List.length_append, length_attr]
  by_cases h4 : 4 ≤ len
  · rw [if_pos h4, if_pos (by omega)]
  · rw [if_neg h4, if_neg (by omega)]

/-- An attribute is read back if its length fits 16 bits. -/
theorem parse_attr (type : Nat) {payload : List UInt8} (rest : List UInt8) (h : 4 + payload.length < 2 ^ 16) :
    parse big (attr big type payload ++ rest) = ⟨type % 2 ^ 14, payload⟩ :: parse big rest := by
  have hlen := length_attr big type payload
  have halign : align (4 + payload.length) = 4 + align payload.length := by unfold align; omega
  rw [parse_attr_append type payload rest (Nat.mod_eq_of_lt h), if_pos (Nat.le_add_right ..), halign,
    List.drop_left' hlen]
  congr 2
  have hbytes : attr big type payload ++ rest = (word big 2 (4 + payload.length) ++ word big 2 type) ++ (payload ++
      (List.replicate (align payload.length - payload.length) 0 ++ rest)) := by
    simp only [attr, List.append_assoc]
  have hheader : (word big 2 (4 + payload.length) ++ word big 2 type).length = 4 := by simp
  rw [hbytes, List.drop_take, List.drop_left' hheader, Nat.add_sub_cancel_left, List.take_left]

/-- The last attribute of a sequence. -/
theorem parse_attr_last (type : Nat) {payload : List UInt8} (h : 4 + payload.length < 2 ^ 16) :
    parse big (attr big type payload) = [⟨type % 2 ^ 14, payload⟩] := by
  have hparse : parse big (attr big type payload ++ []) = _ := parse_attr type [] h
  rwa [List.append_nil, parse_nil] at hparse

/-- A list of attributes is read back. -/
theorem parse_flatMap {α : Type} (type : α → Nat) (payload : α → List UInt8) {xs : List α}
    (h : ∀ x ∈ xs, 4 + (payload x).length < 2 ^ 16) :
    parse big (xs.flatMap fun x => attr big (type x) (payload x)) = xs.map fun x => ⟨type x % 2 ^ 14, payload x⟩ := by
  induction xs with
  | nil => rfl
  | cons x xs ih =>
    rw [List.flatMap_cons, parse_attr _ _ (h x (List.mem_cons_self ..)), List.map_cons,
      ih fun y hy => h y (List.mem_cons_of_mem _ hy)]

theorem find_cons (type : Nat) (a : Attr) (as : List Attr) :
    find type (a :: as) = if a.type = type then some a.payload else find type as := by
  rw [find, List.find?_cons]
  by_cases h : a.type = type
  · rw [if_pos h, decide_eq_true h]
    rfl
  · rw [if_neg h, decide_eq_false h]
    rfl

/-- Among attributes of different types each is found. -/
theorem find_of_mem {as : List Attr} (h : (as.map Attr.type).Nodup) {type : Nat} {payload : List UInt8}
    (ha : ⟨type, payload⟩ ∈ as) : find type as = some payload := by
  induction as with
  | nil => cases ha
  | cons b as ih =>
    rw [List.map_cons, List.nodup_cons] at h
    rw [find_cons]
    obtain heq | hmem := List.mem_cons.mp ha
    · rw [← heq, if_pos rfl]
    · have hne : b.type ≠ type := fun heq => h.1 (heq ▸ List.mem_map_of_mem (f := Attr.type) hmem)
      rw [if_neg hne, ih h.2 hmem]

theorem get_word (w v : Nat) : get big w (word big w v) = some (v % 256 ^ w) := by
  have hlen := length_word big w v
  rw [get, if_pos (Nat.le_of_eq hlen.symm), List.take_of_length_le (Nat.le_of_eq hlen), value_word]

theorem le_of_get {w v : Nat} {payload : List UInt8} (h : get big w payload = some v) : w ≤ payload.length := by
  by_contra hlt
  rw [get, if_neg hlt] at h
  cases h

/-! ## Sizes -/

/-- The bytes of attributes, without what pads them. -/
def size (as : List Attr) : Nat := (as.map fun a => 4 + a.payload.length).sum

theorem size_cons (a : Attr) (as : List Attr) : size (a :: as) = 4 + a.payload.length + size as := rfl

theorem size_parse_le (big : Bool) (bs : List UInt8) : size (parse big bs) ≤ bs.length := by
  have hle : ∀ n (bs : List UInt8), size (parseN big n bs) ≤ bs.length := by
    intro n
    induction n with
    | zero => exact fun bs => Nat.zero_le _
    | succ n ih =>
      intro bs
      rw [parseN_succ]
      split
      · have hrest := ih (bs.drop (align (value big (bs.take 2))))
        have halign := le_align (value big (bs.take 2))
        rw [List.length_drop] at hrest
        rw [size_cons, List.length_drop, List.length_take]
        omega
      · exact Nat.zero_le _
  exact hle _ bs

/-- Values read from one attribute each, that need so many bytes. -/
theorem sum_le_size {α : Type} {f : Attr → Option α} (w : α → Nat)
    (hf : ∀ a v, f a = some v → w v ≤ 4 + a.payload.length) {as : List Attr} {vs : List α} (h : as.mapM f = some vs) :
    (vs.map w).sum ≤ size as := by
  induction as generalizing vs with
  | nil =>
    cases h
    exact Nat.le_refl _
  | cons a as ih =>
    rw [List.mapM_cons] at h
    obtain ⟨v, hv, h⟩ := Option.bind_eq_some_iff.mp h
    obtain ⟨vs', hvs, h⟩ := Option.bind_eq_some_iff.mp h
    cases h
    rw [List.map_cons, List.sum_cons, size_cons]
    exact Nat.add_le_add (hf a v hv) (ih hvs)

/-- The bytes of the attribute that `find` finds. -/
def found (as : List Attr) (type : Nat) : Nat := ((find type as).map fun payload => 4 + payload.length).getD 0

theorem found_of_find {as : List Attr} {type : Nat} {payload : List UInt8} (h : find type as = some payload) :
    found as type = 4 + payload.length := by
  rw [found, h]
  rfl

theorem found_cons (a : Attr) (as : List Attr) (type : Nat) :
    found (a :: as) type = if a.type = type then 4 + a.payload.length else found as type := by
  rw [found, find_cons]
  split <;> rfl

/-- Attributes found under different types are different. -/
theorem sum_found_le (as : List Attr) {types : List Nat} (h : types.Nodup) :
    (types.map (found as)).sum ≤ size as := by
  induction as generalizing types with
  | nil =>
    have hnil : types.map (found []) = types.map fun _ => 0 := List.map_congr_left fun _ _ => rfl
    rw [hnil, List.map_const', List.sum_replicate_nat, Nat.mul_zero]
    exact Nat.zero_le _
  | cons a as ih =>
    -- what is found under the other types is in the rest
    have hrest : ∀ {ts : List Nat}, a.type ∉ ts → ts.map (found (a :: as)) = ts.map (found as) := fun hmem =>
      List.map_congr_left fun t ht => by rw [found_cons, if_neg fun heq : a.type = t => hmem (heq ▸ ht)]
    rw [size_cons]
    by_cases hmem : a.type ∈ types
    · have hsum := ((List.perm_cons_erase hmem).map (found (a :: as))).sum_nat
      rw [hsum, List.map_cons, List.sum_cons, hrest h.not_mem_erase, found_cons, if_pos rfl]
      exact Nat.add_le_add_left (ih (h.erase _)) _
    · rw [hrest hmem]
      exact Nat.le_add_left_of_le (ih h)

end Ubbd.Nla
