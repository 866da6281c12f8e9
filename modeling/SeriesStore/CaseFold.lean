/-!
# Names without regard to case

Policies and aggregations are named by plain words, in any letter case. A
character is folded by the rule of the full alphabet, of which only two parts
can turn a text into such a word: the capital letters `A` to `Z`, and the Kelvin
sign, whose small letter is `k`.
-/

namespace SeriesStore

/-- The small letter of a character that has a plain one. -/
def foldChar (c : Char) : Char := if c = '\u212a' then 'k' else c.toLower

/-- The text with every character folded. -/
def foldCase (s : String) : String := s.map foldChar

end SeriesStore
