import Mathlib.Data.List.Nodup

/-!
# `CodecType`

The codecs a configuration can name. A configured string names a codec if it
is the codec's name in any letter case.
-/

namespace MediaServer

inductive CodecType where
  | pcmu
  | pcma
  | gsm
  | l16
  | g729
  | ilbc
  | opus
  | dtmf
deriving DecidableEq

namespace CodecType

/-- The arguments of the enumeration's constructor. -/
structure Entry where
  payloadType : ℕ
  name : String
  encoder : String
  decoder : String

def entry : CodecType → Entry
  | .pcmu => ⟨0, "pcmu", "org.restcomm.media.core.codec.g711.ulaw.Encoder",
      "org.restcomm.media.core.codec.g711.ulaw.Decoder"⟩
  | .pcma => ⟨8, "pcma", "org.restcomm.media.core.codec.g711.alaw.Encoder",
      "org.restcomm.media.core.codec.g711.alaw.Decoder"⟩
  | .gsm => ⟨3, "gsm", "org.restcomm.media.core.codec.gsm.Encoder",
      "org.restcomm.media.core.codec.gsm.Decoder"⟩
  | .l16 => ⟨97, "l16", "org.restcomm.media.core.codec.l16.Encoder",
      "org.restcomm.media.core.codec.l16.Decoder"⟩
  | .g729 => ⟨18, "g729", "org.restcomm.media.core.codec.g729.Encoder",
      "org.restcomm.media.core.codec.g729.Decoder"⟩
  | .ilbc => ⟨102, "ilbc", "org.restcomm.media.core.codec.ilbc.Encoder",
      "org.restcomm.media.core.codec.ilbc.Decoder"⟩
  | .opus => ⟨111, "opus", "org.restcomm.media.core.codec.opus.Encoder",
      "org.restcomm.media.core.codec.opus.Decoder"⟩
  | .dtmf => ⟨101, "telephone-event", "", ""⟩

def payloadType (codec : CodecType) : ℕ := codec.entry.payloadType

def name (codec : CodecType) : String := codec.entry.name

def encoder (codec : CodecType) : String := codec.entry.encoder

def decoder (codec : CodecType) : String := codec.entry.decoder

def values : List CodecType :=
  [.pcmu, .pcma, .gsm, .l16, .g729, .ilbc, .opus, .dtmf]

/-- The letter case Java's `equalsIgnoreCase` ignores, as far as it concerns
a comparison with an ASCII text: beside the ASCII letters, the dotted and the
dotless `i`, the long `s` and the Kelvin sign stand for ASCII letters. -/
def foldCase (c : Char) : Char :=
  if c.toNat = 0x130 ∨ c.toNat = 0x131 then 'i'
  else if c.toNat = 0x17F then 's'
  else if c.toNat = 0x212A then 'k'
  else c.toLower

/-- `String.equalsIgnoreCase` on an ASCII receiver. -/
def equalsIgnoreCase (s t : String) : Bool :=
  s.toList.map foldCase == t.toList.map foldCase

def fromName : Option String → Option CodecType
  | none => none
  | some name =>
      if name.isEmpty then none
      else values.find? fun codec => equalsIgnoreCase codec.name name

/-! ## The table -/

theorem mem_values (codec : CodecType) : codec ∈ values := by
  cases codec <;> decide

theorem payloadType_injective : Function.Injective payloadType := by
  intro c d h
  cases c <;> cases d <;> first | rfl | simp [payloadType, entry] at h

theorem decoder_injective : Function.Injective decoder := by
  intro c d h
  cases c <;> cases d <;> first | rfl | simp [decoder, entry] at h

/-- Only telephone-event comes without an encoder and a decoder. -/
theorem encoder_isEmpty (codec : CodecType) :
    codec.encoder.isEmpty = decide (codec = .dtmf) := by
  cases codec <;> simp [encoder, entry]

theorem decoder_isEmpty (codec : CodecType) :
    codec.decoder.isEmpty = decide (codec = .dtmf) := by
  cases codec <;> simp [decoder, entry]

/-! ## Naming a codec -/

/-- No two codecs have the same name in any letter case. -/
theorem equalsIgnoreCase_name_iff (c d : CodecType) :
    equalsIgnoreCase c.name d.name = true ↔ c = d := by
  cases c <;> cases d <;> decide

/-- **Which strings name a codec.** A string names exactly the codec whose
name it is in some letter case. -/
theorem fromName_eq_some_iff {name : String} {codec : CodecType} :
    fromName (some name) = some codec ↔
      equalsIgnoreCase codec.name name = true := by
  have hempty : ∀ d : CodecType, equalsIgnoreCase d.name "" = false := by
    intro d
    cases d <;> decide
  by_cases hname : name.isEmpty = true
  · obtain rfl : name = "" := String.isEmpty_iff.mp hname
    rw [hempty codec]
    exact iff_of_false (by simp [fromName]) Bool.false_ne_true
  · show (if name.isEmpty then none else _) = some codec ↔ _
    rw [if_neg hname]
    constructor
    · exact fun h => List.find?_some (a := codec) h
    · intro h
      cases hfind : values.find? fun d => equalsIgnoreCase d.name name with
      | none =>
          rw [List.find?_eq_none] at hfind
          exact absurd h (hfind codec (mem_values codec))
      | some d =>
          -- two names that both fold to `name` fold to each other
          have hd : equalsIgnoreCase d.name name = true :=
            List.find?_some (a := d) hfind
          have hsame : equalsIgnoreCase d.name codec.name = true := by
            simp only [equalsIgnoreCase, beq_iff_eq] at h hd ⊢
            exact hd.trans h.symm
          rw [(equalsIgnoreCase_name_iff d codec).mp hsame]

end CodecType

end MediaServer
