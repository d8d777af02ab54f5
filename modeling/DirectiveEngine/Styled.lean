import DirectiveEngine.Text.Blank
import DirectiveEngine.Text.LetterCase

/-!
# Styled text

Chat text with a color and decorations.  A style is written as names separated by commas, in any letter case.
-/

namespace DirectiveEngine

inductive Color where
  | black
  | darkBlue
  | darkGreen
  | darkAqua
  | darkRed
  | darkPurple
  | gold
  | gray
  | darkGray
  | blue
  | green
  | aqua
  | red
  | lightPurple
  | yellow
  | white
  deriving DecidableEq

namespace Color

def all : List Color :=
  [black, darkBlue, darkGreen, darkAqua, darkRed, darkPurple, gold, gray, darkGray, blue, green, aqua, red,
    lightPurple, yellow, white]

def name : Color → Text
  | black => "black"
  | darkBlue => "dark_blue"
  | darkGreen => "dark_green"
  | darkAqua => "dark_aqua"
  | darkRed => "dark_red"
  | darkPurple => "dark_purple"
  | gold => "gold"
  | gray => "gray"
  | darkGray => "dark_gray"
  | blue => "blue"
  | green => "green"
  | aqua => "aqua"
  | red => "red"
  | lightPurple => "light_purple"
  | yellow => "yellow"
  | white => "white"

def ofName? (t : Text) : Option Color :=
  all.find? fun c => c.name.sameAscii t

end Color

inductive Decoration where
  | bold
  | italic
  | underlined
  | strikethrough
  | obfuscated
  deriving DecidableEq

namespace Decoration

def all : List Decoration :=
  [bold, italic, underlined, strikethrough, obfuscated]

def name : Decoration → Text
  | bold => "bold"
  | italic => "italic"
  | underlined => "underlined"
  | strikethrough => "strikethrough"
  | obfuscated => "obfuscated"

def ofName? (t : Text) : Option Decoration :=
  all.find? fun d => d.name.sameAscii t

end Decoration

structure StyledText where
  text : Text
  color : Option Color := none
  decorations : List Decoration := []
  deriving DecidableEq

namespace StyledText

def colored (text : Text) (color : Color) : StyledText :=
  { text, color := some color }

/-- One more name of a style.  The last color wins, a decoration counts once, and an unknown name nothing. -/
def add (s : StyledText) (part : Text) : StyledText :=
  match Color.ofName? part, Decoration.ofName? part with
  | some c, _ => { s with color := some c }
  | none, some d => if d ∈ s.decorations then s else { s with decorations := s.decorations ++ [d] }
  | none, none => s

def ofStyle (style : Option Text) (text : Text) : StyledText :=
  match style with
  | none => { text }
  | some style => (((style.splitOn ',').map Text.trim).filter fun p => !p.isEmpty).foldl add { text }

end StyledText
end DirectiveEngine
