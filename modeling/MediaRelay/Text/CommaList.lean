/-! # Lists in one line of text -/
namespace MediaRelay

/-- The items one after another with a comma between two. -/
def commaJoined (items : List String) : String := ",".intercalate items

end MediaRelay
