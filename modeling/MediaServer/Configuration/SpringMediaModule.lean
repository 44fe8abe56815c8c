import Mathlib.Data.List.Count
import MediaServer.Configuration.CodecType
import MediaServer.Foundation.Lists

/-!
# Formats and transcoders of `SpringMediaModule`

Two bean factories walk the configured codecs: `rtpFormats` collects the
formats to offer, `dspFactory` the encoder and decoder classes to install.
Both follow the entries one by one; neither asks whether a codec came before.
-/

namespace MediaServer

open Foundation

/-! ## The module -/

/-- `AVProfile.audio`: a format it finds for a payload type has that payload
type. -/
structure AudioProfile (Format : Type) where
  find : ℕ → Option Format
  payloadType : Format → ℕ
  payloadType_of_find : ∀ {p f}, find p = some f → payloadType f = p

namespace SpringMediaModule

/-- An entry that names no codec leaves a hole. -/
def loadCodecs (codecs : List (Option String)) : List (Option CodecType) :=
  codecs.map CodecType.fromName

/-- The body of `dspFactory`'s loop, over the class names added so far. -/
def addCodecs (dsp : List String) : Option CodecType → List String
  | none => dsp
  | some codecType =>
      if !codecType.encoder.isEmpty && !codecType.decoder.isEmpty then
        (dsp ++ [codecType.decoder]) ++ [codecType.encoder]
      else dsp

def dspFactory (codecs : List (Option String)) : List String :=
  (loadCodecs codecs).foldl addCodecs []

section Formats

variable {Format : Type} (profile : AudioProfile Format)

/-- The body of `rtpFormats`' loop, over the formats added so far. -/
def addFormat (formats : List Format) : Option CodecType → List Format
  | none => formats
  | some codecType =>
      match profile.find codecType.payloadType with
      | none => formats
      | some format => formats ++ [format]

def rtpFormats (codecs : List (Option String)) : List Format :=
  (loadCodecs codecs).foldl (addFormat profile) []

end Formats

/-! ## What the two loops add -/

/-- The codecs the entries name, as often as they name them. -/
def named (codecs : List (Option String)) : List CodecType :=
  codecs.filterMap CodecType.fromName

/-- The classes of a codec. -/
def classes (codec : CodecType) : List String := [codec.decoder, codec.encoder]

def transcoded (codec : CodecType) : Bool := !decide (codec = .dtmf)

theorem addCodecs_some (dsp : List String) (codec : CodecType) :
    addCodecs dsp (some codec) =
      dsp ++ ([codec].filter transcoded).flatMap classes := by
  have hguard : (!codec.encoder.isEmpty && !codec.decoder.isEmpty) =
      transcoded codec := by
    rw [CodecType.encoder_isEmpty, CodecType.decoder_isEmpty, Bool.and_self]
    rfl
  unfold addCodecs
  simp only [hguard]
  cases htranscoded : transcoded codec with
  | true => simp [htranscoded, classes]
  | false => simp [htranscoded]

theorem dspFactory_eq (codecs : List (Option String)) :
    dspFactory codecs = ((named codecs).filter transcoded).flatMap classes := by
  have hloop : ∀ dsp, (loadCodecs codecs).foldl addCodecs dsp =
      dsp ++ ((named codecs).filter transcoded).flatMap classes := by
    unfold loadCodecs named
    induction codecs with
    | nil => simp
    | cons entry codecs ih =>
        intro dsp
        rw [List.map_cons, List.foldl_cons, ih, List.filterMap_cons]
        cases CodecType.fromName entry with
        | none => rfl
        | some codec =>
            show addCodecs dsp (some codec) ++ _ =
              dsp ++ ((codec :: _).filter transcoded).flatMap classes
            rw [addCodecs_some, List.append_assoc, ← List.flatMap_append,
              ← List.filter_append, List.singleton_append]
  exact hloop []

section Formats

variable {Format : Type} {profile : AudioProfile Format}

/-- The format of a codec, if `AVProfile` knows its payload type. -/
def formatOf (profile : AudioProfile Format) (codec : CodecType) :
    Option Format :=
  profile.find codec.payloadType

def known (profile : AudioProfile Format) (codec : CodecType) : Bool :=
  (formatOf profile codec).isSome

theorem rtpFormats_eq (codecs : List (Option String)) :
    rtpFormats profile codecs =
      (named codecs).filterMap (formatOf profile) := by
  have hloop : ∀ formats,
      (loadCodecs codecs).foldl (addFormat profile) formats =
        formats ++ (named codecs).filterMap (formatOf profile) := by
    unfold loadCodecs named
    induction codecs with
    | nil => simp
    | cons entry codecs ih =>
        intro formats
        rw [List.map_cons, List.foldl_cons, ih, List.filterMap_cons]
        cases CodecType.fromName entry with
        | none => rfl
        | some codec =>
            cases hfind : profile.find codec.payloadType with
            | none => simp [addFormat, formatOf, hfind]
            | some format => simp [addFormat, formatOf, hfind]
  exact hloop []

/-! ## Offered and installed -/

/-- The payload types of the formats found are those of the codecs known. -/
theorem map_payloadType_filterMap (l : List CodecType) :
    (l.filterMap (formatOf profile)).map profile.payloadType =
      (l.filter (known profile)).map CodecType.payloadType := by
  induction l with
  | nil => rfl
  | cons codec l ih =>
      cases hfind : formatOf profile codec with
      | none =>
          have hknown : ¬ known profile codec = true := by simp [known, hfind]
          rw [List.filterMap_cons_none hfind, ih,
            List.filter_cons_of_neg hknown]
      | some format =>
          have hknown : known profile codec = true := by simp [known, hfind]
          rw [List.filterMap_cons_some hfind, List.map_cons, ih,
            List.filter_cons_of_pos hknown, List.map_cons,
            profile.payloadType_of_find hfind]

theorem filterMap_filter_known (l : List CodecType) :
    (l.filter (known profile)).filterMap (formatOf profile) =
      l.filterMap (formatOf profile) := by
  rw [List.filterMap_filter]
  congr 1
  funext codec
  cases hfind : formatOf profile codec with
  | none => simp
  | some format => simp [known, hfind]

theorem flatMap_classes_injective :
    Function.Injective (List.flatMap classes) := by
  intro l l' h
  induction l generalizing l' with
  | nil =>
      cases l' with
      | nil => rfl
      | cons d l' => simp [classes] at h
  | cons c l ih =>
      cases l' with
      | nil => simp [classes] at h
      | cons d l' =>
          simp only [List.flatMap_cons, classes, List.cons_append,
            List.nil_append, List.cons.injEq] at h
          obtain ⟨hdecoder, -, hrest⟩ := h
          rw [CodecType.decoder_injective hdecoder, ih hrest]

/-- Both beans follow the entries: they hold the format, and the decoder and
encoder, of each codec as often as entries name it and in the entries'
order; what names no codec leaves no trace. -/
structure Agree (profile : AudioProfile Format)
    (codecs : List (Option String)) : Prop where
  formats : rtpFormats profile codecs =
    (named codecs).filterMap (formatOf profile)
  transcoders : dspFactory codecs =
    ((named codecs).filter transcoded).flatMap classes
  installed : ∀ format ∈ rtpFormats profile codecs,
    profile.payloadType format ≠ CodecType.dtmf.payloadType →
    ∃ codec : CodecType, codec.payloadType = profile.payloadType format ∧
      codec.decoder ∈ dspFactory codecs ∧ codec.encoder ∈ dspFactory codecs
  offered : ∀ codec : CodecType,
    ((rtpFormats profile codecs).map profile.payloadType).count
        codec.payloadType =
      if known profile codec then (named codecs).count codec else 0
  unnamed : ∀ front entry back, codecs = front ++ entry :: back →
    CodecType.fromName entry = none →
    rtpFormats profile (front ++ back) = rtpFormats profile codecs ∧
      dspFactory (front ++ back) = dspFactory codecs

/-- Both beans hold each codec once, in the order in which the codecs are
first named, and no payload type is offered twice. -/
structure OnceEach (profile : AudioProfile Format)
    (codecs : List (Option String)) : Prop where
  formats : rtpFormats profile codecs =
    (named codecs).eraseDups.filterMap (formatOf profile)
  transcoders : dspFactory codecs =
    ((named codecs).eraseDups.filter transcoded).flatMap classes
  distinct : ((rtpFormats profile codecs).map profile.payloadType).Nodup

theorem count_offered (codecs : List (Option String)) (codec : CodecType) :
    ((rtpFormats profile codecs).map profile.payloadType).count
        codec.payloadType =
      if known profile codec then (named codecs).count codec else 0 := by
  rw [rtpFormats_eq, map_payloadType_filterMap,
    List.count_map_of_injective _ _ CodecType.payloadType_injective]
  cases hknown : known profile codec with
  | true => rw [List.count_filter hknown, if_pos rfl]
  | false =>
      rw [if_neg Bool.false_ne_true, List.count_eq_zero]
      intro hmem
      exact Bool.false_ne_true (hknown.symm.trans (List.mem_filter.mp hmem).2)

theorem installed_of_offered {codecs : List (Option String)} {format : Format}
    (hoffered : format ∈ rtpFormats profile codecs)
    (hdtmf : profile.payloadType format ≠ CodecType.dtmf.payloadType) :
    ∃ codec : CodecType, codec.payloadType = profile.payloadType format ∧
      codec.decoder ∈ dspFactory codecs ∧
      codec.encoder ∈ dspFactory codecs := by
  rw [rtpFormats_eq] at hoffered
  obtain ⟨codec, hnamed, hfind⟩ := List.mem_filterMap.mp hoffered
  have hpayload : profile.payloadType format = codec.payloadType :=
    profile.payloadType_of_find hfind
  -- only telephone-event goes without transcoders
  have htranscoded : transcoded codec = true := by
    have hne : codec ≠ .dtmf := by
      rintro rfl
      exact hdtmf hpayload
    simp [transcoded, hne]
  have hclasses : classes codec ⊆ dspFactory codecs := by
    intro name hname
    rw [dspFactory_eq]
    exact List.mem_flatMap.mpr
      ⟨codec, List.mem_filter.mpr ⟨hnamed, htranscoded⟩, hname⟩
  refine ⟨codec, hpayload.symm, hclasses ?_, hclasses ?_⟩
  · simp [classes]
  · simp [classes]

theorem named_append_cons {entry : Option String}
    (hentry : CodecType.fromName entry = none)
    (front back : List (Option String)) :
    named (front ++ entry :: back) = named (front ++ back) := by
  unfold named
  rw [List.filterMap_append, List.filterMap_cons_none hentry,
    List.filterMap_append]

theorem agree (profile : AudioProfile Format)
    (codecs : List (Option String)) : Agree profile codecs := by
  refine ⟨rtpFormats_eq codecs, dspFactory_eq codecs,
    fun _ => installed_of_offered, count_offered codecs, ?_⟩
  rintro front entry back rfl hentry
  rw [rtpFormats_eq, rtpFormats_eq, dspFactory_eq, dspFactory_eq,
    named_append_cons hentry]
  exact ⟨rfl, rfl⟩

/-- The formats come once each exactly if no codec with a format is named
twice. -/
theorem rtpFormats_eq_iff (codecs : List (Option String)) :
    rtpFormats profile codecs =
        (named codecs).eraseDups.filterMap (formatOf profile) ↔
      ((named codecs).filter (known profile)).Nodup := by
  rw [← filter_eraseDups_eq_iff, rtpFormats_eq]
  constructor
  · intro h
    have hpayloads := congrArg (List.map profile.payloadType) h
    rw [map_payloadType_filterMap, map_payloadType_filterMap] at hpayloads
    exact List.map_injective_iff.mpr CodecType.payloadType_injective hpayloads
  · intro h
    rw [← filterMap_filter_known, h, filterMap_filter_known]

theorem dspFactory_eq_iff (codecs : List (Option String)) :
    dspFactory codecs =
        ((named codecs).eraseDups.filter transcoded).flatMap classes ↔
      ((named codecs).filter transcoded).Nodup := by
  rw [← filter_eraseDups_eq_iff, dspFactory_eq]
  exact flatMap_classes_injective.eq_iff

/-- Each codec is held once exactly if none is named twice; telephone-event
counts where `AVProfile` knows it. -/
theorem onceEach_iff (codecs : List (Option String)) :
    OnceEach profile codecs ↔
      ((named codecs).filter fun codec =>
        transcoded codec || known profile codec).Nodup := by
  rw [nodup_filter_or_iff]
  constructor
  · intro h
    exact ⟨(dspFactory_eq_iff codecs).mp h.transcoders,
      (rtpFormats_eq_iff codecs).mp h.formats⟩
  · rintro ⟨htranscoded, hknown⟩
    refine ⟨(rtpFormats_eq_iff codecs).mpr hknown,
      (dspFactory_eq_iff codecs).mpr htranscoded, ?_⟩
    rw [rtpFormats_eq, map_payloadType_filterMap]
    exact hknown.map CodecType.payloadType_injective

/-- **Offer and transcoders agree for every configuration.** The beans follow
the entries, however often they name a codec, and hold each codec once exactly
if none is named twice. -/
theorem codecs_agree (profile : AudioProfile Format)
    (codecs : List (Option String)) :
    Agree profile codecs ∧
      (OnceEach profile codecs ↔
        ((named codecs).filter fun codec =>
          transcoded codec || known profile codec).Nodup) :=
  ⟨agree profile codecs, onceEach_iff codecs⟩

/-- The same codec in two letter cases, with a profile that knows every
payload type: payload type 0 is offered twice. -/
theorem codec_offered_twice :
    let profile : AudioProfile ℕ := ⟨some, id, fun h => Option.some.inj h.symm⟩
    rtpFormats profile [some "pcmu", some "PCMU"] = [0, 0] ∧
      ¬ OnceEach profile [some "pcmu", some "PCMU"] := by
  refine ⟨by decide, fun honce => ?_⟩
  exact absurd honce.distinct (by decide)

end Formats

end SpringMediaModule

end MediaServer
