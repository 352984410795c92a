import Mathlib.Data.List.Basic
import Mathlib.Tactic

/-!
# Netlink

Numbers as bytes of either order, attributes (length, type, value, padded to four bytes) and
messages behind a header of sixteen bytes, with the readers of the receiving side.

* `attrs_attr_append`, `messages_message_append`: what was written is read back, whatever follows.
* `messages_flatMap`: the same for a list of messages.
-/

namespace Netlink

open List

/-! ### Numbers -/

/-- The order of the bytes of a number. -/
inductive Endian where
  | big
  | little
  deriving DecidableEq

/-- From the lowest byte first to the given order, and back. -/
def Endian.arrange (e : Endian) (bs : List UInt8) : List UInt8 :=
  match e with
  | .big => bs.reverse
  | .little => bs

/-- The lowest `w` bytes of a number, the lowest first. -/
def lowBytes : (w n : ℕ) → List UInt8
  | 0, _ => []
  | w + 1, n => UInt8.ofNat n :: lowBytes w (n / 256)

/-- The number whose bytes are these, the lowest first. -/
def ofLowBytes : List UInt8 → ℕ
  | [] => 0
  | b :: bs => b.toNat + 256 * ofLowBytes bs

/-- A number in `w` bytes. -/
def put (e : Endian) (w n : ℕ) : List UInt8 := e.arrange (lowBytes w n)

/-- The number in these bytes. -/
def get (e : Endian) (bs : List UInt8) : ℕ := ofLowBytes (e.arrange bs)

theorem lowBytes_length (w n : ℕ) : (lowBytes w n).length = w := by
  induction w generalizing n with
  | zero => rfl
  | succ w ih => rw [lowBytes, length_cons, ih]

theorem ofLowBytes_lowBytes (w n : ℕ) : ofLowBytes (lowBytes w n) = n % 256 ^ w := by
  induction w generalizing n with
  | zero => exact (Nat.mod_one n).symm
  | succ w ih =>
    have hbyte : (UInt8.ofNat n).toNat = n % 256 := UInt8.toNat_ofNat'
    rw [lowBytes, ofLowBytes, ih, hbyte, Nat.pow_succ', Nat.mod_mul]

theorem ofLowBytes_inj {a b : List UInt8} (hlen : a.length = b.length)
    (h : ofLowBytes a = ofLowBytes b) : a = b := by
  induction a generalizing b with
  | nil => exact (eq_nil_of_length_eq_zero hlen.symm).symm
  | cons x a ih =>
    cases b with
    | nil => cases hlen
    | cons y b =>
      rw [ofLowBytes, ofLowBytes] at h
      have hx := x.toNat_lt
      have hy := y.toNat_lt
      have hhead : x = y := UInt8.toNat_inj.1 (by omega)
      rw [hhead, ih (Nat.succ.inj hlen) (by omega)]

variable {e : Endian}

theorem Endian.arrange_arrange (e : Endian) (bs : List UInt8) : e.arrange (e.arrange bs) = bs := by
  cases e with
  | big => exact bs.reverse_reverse
  | little => rfl

theorem Endian.arrange_length (e : Endian) (bs : List UInt8) :
    (e.arrange bs).length = bs.length := by
  cases e with
  | big => exact length_reverse
  | little => rfl

@[simp] theorem put_length (e : Endian) (w n : ℕ) : (put e w n).length = w := by
  rw [put, e.arrange_length, lowBytes_length]

theorem get_put {w n : ℕ} (h : n < 256 ^ w) : get e (put e w n) = n := by
  rw [get, put, e.arrange_arrange, ofLowBytes_lowBytes, Nat.mod_eq_of_lt h]

theorem get_inj {a b : List UInt8} (hlen : a.length = b.length) (h : get e a = get e b) :
    a = b := by
  have harr : e.arrange a = e.arrange b :=
    ofLowBytes_inj (by rw [e.arrange_length, e.arrange_length, hlen]) h
  rw [← e.arrange_arrange a, harr, e.arrange_arrange]

/-! ### Attributes -/

/-- The next multiple of four. -/
def align (n : ℕ) : ℕ := (n + 3) / 4 * 4

theorem le_align (n : ℕ) : n ≤ align n := by
  unfold align
  omega

theorem align_lt (n : ℕ) : align n < n + 4 := by
  unfold align
  omega

theorem align_of_dvd {n : ℕ} (h : 4 ∣ n) : align n = n := by
  unfold align
  omega

/-- An attribute: its length without the padding, its type, its value, and the padding. -/
def attr (e : Endian) (typ : UInt16) (data : List UInt8) : List UInt8 :=
  let len := 4 + data.length
  put e 2 len ++ put e 2 typ.toNat ++ data ++ List.replicate (align len - len) 0

/-- The attributes in a text, up to what is not an attribute. -/
def attrs (e : Endian) (bs : List UInt8) : List (UInt16 × List UInt8) :=
  let len := get e (bs.take 2)
  if bs.length < 4 ∨ len < 4 ∨ bs.length < len then []
  else
    (UInt16.ofNat (get e ((bs.drop 2).take 2)), (bs.take len).drop 4) ::
      attrs e (bs.drop (align len))
termination_by bs.length
decreasing_by
  have := le_align (get e (bs.take 2))
  rw [List.length_drop]
  omega

/-- The value of the last attribute of a type; the two highest bits of a type are flags. -/
def field (typ : UInt16) : List (UInt16 × List UInt8) → Option (List UInt8)
  | [] => none
  | (u, data) :: rest => (field typ rest).or (if u &&& 0x3fff = typ then some data else none)

theorem attr_length (e : Endian) (typ : UInt16) (data : List UInt8) :
    (attr e typ data).length = align (4 + data.length) := by
  have := le_align (4 + data.length)
  simp only [attr, length_append, put_length, length_replicate]
  omega

@[simp] theorem attrs_nil (e : Endian) : attrs e [] = [] := by
  rw [attrs]
  exact if_pos (Or.inl (by decide))

variable {data : List UInt8}

/-- **An attribute is read back**, whatever follows. -/
theorem attrs_attr_append {typ : UInt16} (h : data.length < 65532)
    (rest : List UInt8) : attrs e (attr e typ data ++ rest) = (typ, data) :: attrs e rest := by
  have hlen := attr_length e typ data
  have hle := le_align (4 + data.length)
  have hbytes : attr e typ data ++ rest = put e 2 (4 + data.length) ++ (put e 2 typ.toNat ++
      (data ++ (List.replicate (align (4 + data.length) - (4 + data.length)) 0 ++ rest))) := by
    simp only [attr, append_assoc]
  have hget : get e ((attr e typ data ++ rest).take 2) = 4 + data.length := by
    rw [hbytes, take_left' (put_length _ _ _), get_put (by omega)]
  have htyp : get e (((attr e typ data ++ rest).drop 2).take 2) = typ.toNat := by
    rw [hbytes, drop_left' (put_length _ _ _), take_left' (put_length _ _ _), get_put typ.toNat_lt]
  have hdata : ((attr e typ data ++ rest).take (4 + data.length)).drop 4 = data := by
    rw [drop_take, hbytes, ← append_assoc (put e 2 _),
      drop_left' (by simp only [length_append, put_length]),
      take_left' (by omega)]
  rw [attrs, hget, htyp, hdata, drop_left' hlen, UInt16.ofNat_toNat, if_neg]
  rw [length_append, hlen]
  omega

@[simp] theorem attrs_attr {typ : UInt16} (h : data.length < 65532) :
    attrs e (attr e typ data) = [(typ, data)] := by
  have happ : attrs e (attr e typ data ++ []) = _ := attrs_attr_append h []
  rwa [append_nil, attrs_nil] at happ

/-! ### Messages -/

/-- A message. -/
structure Message where
  typ : UInt16
  flags : UInt16
  seq : UInt32
  pid : UInt32
  body : List UInt8
  deriving DecidableEq

/-- A message behind its header. -/
def message (e : Endian) (m : Message) : List UInt8 :=
  put e 4 (16 + m.body.length) ++ put e 2 m.typ.toNat ++ put e 2 m.flags.toNat ++
    put e 4 m.seq.toNat ++ put e 4 m.pid.toNat ++ m.body

/-- The messages in a text, up to what is not a message. -/
def messages (e : Endian) (bs : List UInt8) : List Message :=
  let len := get e (bs.take 4)
  if bs.length < 16 ∨ len < 16 ∨ bs.length < len then []
  else
    ⟨UInt16.ofNat (get e ((bs.drop 4).take 2)), UInt16.ofNat (get e ((bs.drop 6).take 2)),
      UInt32.ofNat (get e ((bs.drop 8).take 4)), UInt32.ofNat (get e ((bs.drop 12).take 4)),
      (bs.take len).drop 16⟩ :: messages e (bs.drop (align len))
termination_by bs.length
decreasing_by
  have := le_align (get e (bs.take 4))
  rw [List.length_drop]
  omega

/-- A body that the next message can follow, with a length that the header can hold. -/
structure Message.Fits (m : Message) : Prop where
  aligned : 4 ∣ m.body.length
  short : m.body.length < 65536

theorem message_length (e : Endian) (m : Message) : (message e m).length = 16 + m.body.length := by
  simp only [message, length_append, put_length]

@[simp] theorem messages_nil (e : Endian) : messages e [] = [] := by
  rw [messages]
  exact if_pos (Or.inl (by decide))

/-- The part of a text that begins after `i` bytes and has the length of `b`. -/
theorem take_drop_append {a b c : List UInt8} {i w : ℕ} (hi : a.length = i) (hw : b.length = w) :
    ((a ++ (b ++ c)).drop i).take w = b := by
  rw [drop_left' hi, take_left' hw]

/-- **A message is read back**, whatever follows. -/
theorem messages_message_append {m : Message} (h : m.Fits) (rest : List UInt8) :
    messages e (message e m ++ rest) = m :: messages e rest := by
  have hlen := message_length e m
  have hshort := h.short
  have hget : get e ((message e m ++ rest).take 4) = 16 + m.body.length := by
    simp only [message, append_assoc]
    rw [take_left' (put_length _ _ _), get_put (by omega)]
  have htyp : get e (((message e m ++ rest).drop 4).take 2) = m.typ.toNat := by
    simp only [message, append_assoc]
    rw [take_drop_append (put_length _ _ _) (put_length _ _ _), get_put m.typ.toNat_lt]
  have hflags : get e (((message e m ++ rest).drop 6).take 2) = m.flags.toNat := by
    simp only [message, append_assoc]
    rw [← append_assoc, take_drop_append (by simp) (put_length _ _ _), get_put m.flags.toNat_lt]
  have hseq : get e (((message e m ++ rest).drop 8).take 4) = m.seq.toNat := by
    simp only [message, append_assoc]
    rw [← append_assoc, ← append_assoc, take_drop_append (by simp) (put_length _ _ _),
      get_put m.seq.toNat_lt]
  have hpid : get e (((message e m ++ rest).drop 12).take 4) = m.pid.toNat := by
    simp only [message, append_assoc]
    rw [← append_assoc, ← append_assoc, ← append_assoc,
      take_drop_append (by simp) (put_length _ _ _), get_put m.pid.toNat_lt]
  have hbody : ((message e m ++ rest).take (16 + m.body.length)).drop 16 = m.body := by
    rw [take_left' hlen, message]
    exact drop_left' (by simp)
  have halign : align (16 + m.body.length) = 16 + m.body.length :=
    align_of_dvd (Nat.dvd_add (by decide) h.aligned)
  rw [messages, hget, htyp, hflags, hseq, hpid, hbody, halign, drop_left' hlen, if_neg]
  · simp only [UInt16.ofNat_toNat, UInt32.ofNat_toNat]
  · rw [length_append, hlen]
    omega

theorem messages_flatMap {ms : List Message} (h : ∀ m ∈ ms, m.Fits) (rest : List UInt8) :
    messages e (ms.flatMap (message e) ++ rest) = ms ++ messages e rest := by
  induction ms with
  | nil => rfl
  | cons m ms ih =>
    rw [flatMap_cons, append_assoc, messages_message_append (h m mem_cons_self), ih fun m' hm' =>
        h m' (mem_cons_of_mem _ hm'), cons_append]

end Netlink
