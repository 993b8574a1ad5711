import MediaRelay.Protocol.Terms

/-! # Protocols

A protocol is one wire format that can be served: its identity as advertised to control points, the
numeric shape used for matching, and the hints for the encoder that produces it. A protocol without
a profile stands for "not found".
-/
namespace MediaRelay

structure AudioShape where
  sampleRate : Nat := 0
  channels : Nat := 0
deriving BEq

structure VideoShape where
  width : Nat := 0
  height : Nat := 0
  /-- Width of a pixel over its height. -/
  aspect : Float32 := 0
  rateNum : Nat := 0
  rateDen : Nat := 0
deriving BEq

/-- How to run the encoder; rates are in kbit/s. Hints are no part of the identity. -/
structure EncoderHints where
  audioCodec : String := ""
  audioRate : Nat := 0
  videoCodec : String := ""
  videoRate : Nat := 0
  mux : String := ""
  fastOptions : String := ""
  slowOptions : String := ""
deriving BEq

namespace EncoderHints

def audio (codec : String) (rate : Nat) (mux : String) : EncoderHints :=
  { audioCodec := codec, audioRate := rate, mux := mux }

def video (h : EncoderHints) (codec : String) (rate : Nat) : EncoderHints :=
  { h with videoCodec := codec, videoRate := rate }

def options (h : EncoderHints) (fast slow : String) : EncoderHints :=
  { h with fastOptions := fast, slowOptions := slow }

end EncoderHints

/-- Equality tests on protocols compare field by field, numbers as IEEE 754 does: a NaN aspect
differs from itself. -/
structure Protocol where
  networkProtocol : String := ""
  network : String := ""
  contentFormat : String := ""
  profile : String := ""
  suffix : String := ""
  playSpeed : Bool := true
  converted : Bool := false
  rangeSeek : Bool := false
  timeSeek : Bool := false
  flags : String := ""
  sampleRate : Nat := 0
  channels : Nat := 0
  width : Nat := 0
  height : Nat := 0
  aspect : Float32 := 0
  rateNum : Nat := 0
  rateDen : Nat := 0
  encoder : EncoderHints := {}
deriving BEq

def isImageFormat (format : String) : Bool := "image/".toList.isPrefixOf format.toList

namespace Protocol

def unset : Protocol := {}

def isValid (p : Protocol) : Bool := p.profile ≠ ""

def isImage (p : Protocol) : Bool := isImageFormat p.contentFormat

/-- Encoded content is always marked as converted and cannot be sought in. -/
def encoded (format profile suffix : String) : Protocol :=
  { networkProtocol := Terms.httpGet
    network := Terms.anyNetwork
    contentFormat := format
    profile := profile
    suffix := suffix
    converted := true
    flags := if isImageFormat format then Terms.imageFlags else Terms.streamingFlags }

def withAudio (p : Protocol) (a : AudioShape) : Protocol :=
  { p with sampleRate := a.sampleRate, channels := a.channels }

def withVideo (p : Protocol) (v : VideoShape) : Protocol :=
  { p with width := v.width, height := v.height, aspect := v.aspect,
           rateNum := v.rateNum, rateDen := v.rateDen }

def withEncoder (p : Protocol) (h : EncoderHints) : Protocol := { p with encoder := h }

def audio (format profile suffix : String) (a : AudioShape) : Protocol :=
  (encoded format profile suffix).withAudio a

def video (format profile suffix : String) (a : AudioShape) (v : VideoShape) : Protocol :=
  ((encoded format profile suffix).withAudio a).withVideo v

def image (format profile suffix : String) (width height : Nat) : Protocol :=
  { encoded format profile suffix with width := width, height := height }

def frameRate (p : Protocol) : Float32 :=
  if p.rateDen = 0 then 0 else Float32.ofNat p.rateNum / Float32.ofNat p.rateDen

/-- The width on a screen with square pixels, rounded to the nearest whole number of pixels and
kept within 32 bits. -/
def displayWidth (p : Protocol) : Nat :=
  (Float32.ofNat p.width * p.aspect + 0.5).toUInt32.toNat

def dataRate (p : Protocol) : Nat := (p.encoder.audioRate + p.encoder.videoRate) * (1024 / 8)

end Protocol
end MediaRelay
