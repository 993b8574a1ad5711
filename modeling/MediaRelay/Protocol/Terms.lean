/-! # Fixed terms of a protocol identity

The transport, the wildcard network, the flag words and the content formats that identities are
made of.
-/
namespace MediaRelay.Terms

def httpGet : String := "http-get"

def anyNetwork : String := "*"

def imageFlags : String := "00100000"

def streamingFlags : String := "01700000"

def reservedFlags : String := "000000000000000000000000"

def audioAac : String := "audio/aac"
def audioAc3 : String := "audio/x-ac3"
def audioLpcm : String := "audio/L16"
def audioMp3 : String := "audio/mpeg"
def audioWave : String := "audio/wave"
def imageJpeg : String := "image/jpeg"
def imagePng : String := "image/png"
def videoMpeg : String := "video/mpeg"
def videoMpegTimestamped : String := "video/vnd.dlna.mpeg-tts"
def videoMpegTransport : String := "video/x-mpegts"

end MediaRelay.Terms
