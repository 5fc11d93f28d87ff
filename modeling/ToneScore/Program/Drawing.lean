import ToneScore.Plot

/-!
# Drawings

The plotting command leaves the drawing to whoever runs it. The program draws a figure as SVG, 1000
by 400 on white.
-/

namespace ToneScore.Plot

open Binary64 Decimal

/-- A character inside the text of an XML element. -/
def escapeChar : Char → String
  | '<' => "&lt;"
  | '>' => "&gt;"
  | '&' => "&amp;"
  | '"' => "&quot;"
  | '\x27' => "&apos;"
  | c => c.toString

def escape (s : String) : String :=
  String.join (s.toList.map escapeChar)

def drawingNamespace : String :=
  "http:" ++ "//www.w3.org/2000/svg"

/-- A drawing of 1000 by 400 on white. -/
def drawing (elements : List String) : String :=
  "<svg width=\"1000\" height=\"400\" viewBox=\"0 0 1000 400\" xmlns=\"" ++ drawingNamespace ++
    "\">\n<rect x=\"0\" y=\"0\" width=\"1000\" height=\"400\" fill=\"#FFFFFF\"/>\n" ++
    String.join elements ++ "</svg>\n"

def polyline (colour : String) (points : List (Float × Float)) : String :=
  let text := points.map fun (x, y) => s!"{fixed 2 x},{fixed 2 y}"
  s!"<polyline fill=\"none\" stroke=\"{colour}\" points=\"" ++ " ".intercalate text ++ "\"/>\n"

def Colour.code : Colour → String
  | blue => "#0000FF"
  | red => "#FF0000"

def svg : Option Figure → String
  | none => drawing []
  | some figure =>
    let across (seconds : Float) : Float :=
      60.0 + (seconds - figure.first) / (figure.last - figure.first) * 930.0
    let down (level : Float) : Float := 195.0 - level / figure.highest * 155.0
    let text := "<text x=\"500\" y=\"20\" text-anchor=\"middle\" font-family=\"sans-serif\" " ++
      "font-size=\"16\" fill=\"#000000\">\n" ++ escape figure.caption ++ "\n</text>\n"
    drawing (text :: figure.lines.map fun (colour, points) =>
      polyline colour.code (points.map fun (seconds, level) => (across seconds, down level)))

end ToneScore.Plot
