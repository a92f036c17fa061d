import QueryMarkup.Text.Width

/-!
Characters as they are drawn: every control character but a line break has a
picture, so that a drawing shows it and it does nothing to the terminal.
-/
namespace QueryMarkup.Diagnostic

/-- A character as it is drawn: a tab is as wide as four blanks, and every other control
character but a line break is drawn by its picture. What joins characters is left out, and
what turns the direction of writing is replaced. -/
def drawnChar (c : Char) : List Char :=
  if c = '\t' then List.replicate 4 ' '
  else if c = '\n' then [c]
  else if c.toNat < 0x20 then [Char.ofNat (0x2400 + c.toNat)]
  else if c.toNat = 0x7F then ['\u2421']
  else if c.toNat = 0x200D then []
  else if Text.turnsDirection c then ['\ufffd']
  else [c]

def drawn (cs : List Char) : List Char := cs.flatMap drawnChar

end QueryMarkup.Diagnostic
