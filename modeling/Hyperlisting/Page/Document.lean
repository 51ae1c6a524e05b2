import Hyperlisting.Page

/-!
The document around a page's body: style sheet, script, outline panel and listing. The source path
is the title.
-/

namespace Hyperlisting.Page

def unlines (lines : List String) : Text := lines.flatMap (·.toList ++ ['\n'])

/-- The look of every class that runs and line labels use. -/
def styleSheet : Text :=
  unlines [
    "a \x7btext-decoration: none; color: #2e8b57\x7d",
    "table, th, td \x7b border: 1px solid lightgrey; padding: 5px; \x7d",
    ".builtin \x7bcolor: #5b4eaf;\x7d",
    ".comment, .block-comment \x7bcolor: #aaaaaa; font-style: italic;\x7d",
    ".constant \x7bcolor: #888888;\x7d",
    ".decorator \x7bcolor: #778899;\x7d",
    ".doc-string \x7bcolor: #005000;\x7d",
    ".error \x7bborder-bottom: 1px solid red;\x7d",
    ".field-name \x7bcolor: #2e8b57;\x7d",
    ".function \x7bcolor: #880000;\x7d",
    ".identifier \x7bcolor: #8b7765;\x7d",
    ".info \x7bborder-bottom: 1px dotted RoyalBlue;\x7d",
    ".keyword \x7bcolor: #0000cd;\x7d",
    ".lineno \x7bcolor: #aaaaaa;\x7d",
    ".number \x7bcolor: #483d8b;\x7d",
    ".parameter \x7bcolor: #2e8b57;\x7d",
    ".string \x7bcolor: #4169e1;\x7d",
    ".type-name \x7bcolor: #4682b4;\x7d",
    ".warning \x7bborder-bottom: 1px dotted orange;\x7d"]

/-- `highlight` clears what it marked before, then marks the elements it is given. -/
def script : Text :=
  unlines [
    "var highlighted = [];",
    "function highlight() \x7b",
    "    for (var i = 0; i < highlighted.length; i++) \x7b",
    "        var elm = document.getElementById(highlighted[i]);",
    "        if (elm != null) \x7b",
    "            elm.style.backgroundColor = '';",
    "        \x7d",
    "    \x7d",
    "    highlighted = [];",
    "    for (var i = 0; i < arguments.length; i++) \x7b",
    "        var elm = document.getElementById(arguments[i]);",
    "        if (elm != null) \x7b",
    "            elm.style.backgroundColor = 'gold';",
    "        \x7d",
    "        highlighted.push(arguments[i]);",
    "    \x7d",
    "\x7d"]

def document : Template where
  source := unlines [
    "<!DOCTYPE html>",
    "<html>",
    "<head>",
    "<meta charset=\"utf-8\">",
    "<title>$\x7btitle\x7d</title>",
    "<style type=\"text/css\">",
    "$\x7bstyle\x7d</style>",
    "<script type=\"text/javascript\">",
    "$\x7bscript\x7d</script>",
    "</head>",
    "<body>",
    "<table width=\"100%\"><tr><td valign=\"top\">$\x7boutline\x7d</td><td><pre>$\x7bbody\x7d</pre></td></tr></table>",
    "</body>",
    "</html>"]

end Hyperlisting.Page

namespace Hyperlisting

def Layout.assemble (layout : Layout) (source : Path) (body outline : Text) :
    Except Failure Page := do
  let output ← layout.pagePath source
  let html ← (Page.document.fill [
    ("title".toList, .text source.text),
    ("style".toList, .markup Page.styleSheet),
    ("script".toList, .markup Page.script),
    ("outline".toList, .markup outline),
    ("body".toList, .markup body)]).mapError Failure.template
  return { source, output, html }

end Hyperlisting
