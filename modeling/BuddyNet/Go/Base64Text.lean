import BuddyNet.Go.Base64
import BuddyNet.Go.JsonRead

/-!
# Base64url inside JSON

A string that the base64url decoder accepts consists of characters of the alphabet, which JSON
writes as they are, and of line breaks, which the decoder skips and JSON escapes. Its length and
the length of its JSON text follow from what it decodes to and from the number of line breaks.
-/

namespace BuddyNet

open Go Go.Json List

variable {c : UInt8}

theorem UrlSafe.plain (h : UrlSafe c) : Plain c := by
  unfold UrlSafe at h
  have hne : ∀ d : UInt8, c.toNat ≠ d.toNat → c ≠ d := fun d hd hcd => hd (congrArg _ hcd)
  refine ⟨by omega, by omega, hne _ ?_, hne _ ?_, hne _ ?_, hne _ ?_, hne _ ?_⟩ <;>
    simp only [UInt8.reduceToNat] <;> omega

theorem newline_ascii (h : Encoding.isNewline c = true) : IsASCII c := by
  rcases Encoding.isNewline_iff.1 h with rfl | rfl <;> simp [IsASCII]

theorem decode_encode_url (s : Bytes) : rawURLEncoding.decode (rawURLEncoding.encode s) = some s :=
  Encoding.decode_encode (Or.inr rfl) s

/-- What of a string the base64 decoder skips. -/
def lineBreaks (s : Bytes) : ℕ := s.countP Encoding.isNewline

variable {s r : Bytes}

section

variable (h : rawURLEncoding.decode s = some r)
include h

theorem decode_chars (hc : c ∈ s) : Plain c ∨ Encoding.isNewline c = true := by
  cases hnl : Encoding.isNewline c with
  | true => exact Or.inr rfl
  | false =>
    have hkept : c ∈ s.filter (!Encoding.isNewline ·) := mem_filter.2 ⟨hc, by simp [hnl]⟩
    exact Or.inl (urlSafe_of_value ((Encoding.decodeQuanta_raw rfl h).2.2 c hkept)).plain

theorem decode_ascii : ∀ c ∈ s, IsASCII c := by
  intro c hc
  rcases decode_chars h hc with hplain | hnl
  · exact hplain.2.1
  · exact newline_ascii hnl

theorem decode_length : s.length = (r.length * 4 + 2) / 3 + lineBreaks s := by
  obtain ⟨hlen, hmod, -⟩ := Encoding.decodeQuanta_raw rfl h
  have hsplit := s.length_eq_length_filter_add Encoding.isNewline
  rw [lineBreaks, countP_eq_length_filter]
  generalize (s.filter (!Encoding.isNewline ·)).length = n at hlen hmod hsplit
  have hcases : n % 4 = 0 ∨ n % 4 = 2 ∨ n % 4 = 3 := by omega
  rcases hcases with h0 | h2 | h3 <;> omega

end

theorem quoteBody_length (h : ∀ c ∈ s, Plain c ∨ Encoding.isNewline c = true) :
    (quoteBody s).length = s.length + lineBreaks s := by
  induction s with
  | nil => rfl
  | cons c s ih =>
    have htail := ih fun d hd => h d (mem_cons_of_mem c hd)
    have hascii : IsASCII c := by
      rcases h c mem_cons_self with hplain | hnl
      · exact hplain.2.1
      · exact newline_ascii hnl
    rw [quoteBody_ascii_cons hascii, length_append, htail, lineBreaks, lineBreaks,
      countP_cons, length_cons]
    rcases h c mem_cons_self with hplain | hnl
    · have hnot : Encoding.isNewline c = false := by
        cases hcase : Encoding.isNewline c with
        | false => rfl
        | true =>
          rcases Encoding.isNewline_iff.1 hcase with rfl | rfl <;> exact absurd hplain.1 (by decide)
      rw [hplain.quoteByte, hnot]
      simp
      omega
    · have htwo : (quoteByte c).length = 2 := by
        rcases Encoding.isNewline_iff.1 hnl with rfl | rfl <;> decide
      rw [htwo, hnl, if_pos rfl]
      omega

theorem quote_length_of_decode (h : rawURLEncoding.decode s = some r) :
    (quote s).length = (r.length * 4 + 2) / 3 + 2 * lineBreaks s + 2 := by
  have hlen := decode_length h
  rw [quote_eq, length_cons, length_append, quoteBody_length fun c => decode_chars h,
    length_singleton]
  omega

theorem plain_encode (s : Bytes) : ∀ c ∈ rawURLEncoding.encode s, Plain c :=
  fun _ hc => (urlSafe_encode hc).plain

theorem utf8_of_plain (h : ∀ c ∈ s, Plain c) : Utf8 s :=
  utf8_of_ascii fun c hc => (h c hc).2.1

end BuddyNet
