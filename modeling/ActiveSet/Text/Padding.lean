/-!
# Text of a given width

Blanks in front of a text or behind it bring it to a width; a text that is longer stays as it is.
-/

namespace ActiveSet.Text

def padLeft (width : Nat) (text : String) : String := "".pushn ' ' (width - text.length) ++ text

def padRight (width : Nat) (text : String) : String := text.pushn ' ' (width - text.length)

end ActiveSet.Text
