/-!
The help text of the command line.
-/
namespace PolicyFormat.Command

/-- How the command is called. -/
def usageLines : List String :=
  ["usage: cf-beautify [-h] [-v] [-o FILE] [--stdout] [-c] [-n] [-p PAGE_WIDTH]",
   "                   [-l LINE_ENDINGS]",
   "                   [input_paths ...]"]

/-- What is shown to a user who asks for help. -/
def helpText : String := String.intercalate "\n" <| usageLines ++
  ["",
   "positional arguments:",
   "  input_paths           Source .cf file paths. If input paths are not",
   "                        specified, reads from stdin instead. If --out is not",
   "                        specified, use of stdin assumes --stdout.\")",
   "",
   "options:",
   "  -h, --help            show this help message and exit",
   "  -v                    Verbose mode, repeat for more detail",
   "  -o FILE, --out FILE   Output file. Cannot be used with multiple input files",
   "  --stdout              Write to stdout instead of output file or overwriting",
   "                        original",
   "  -c, --keep-empty      Keep empty promise types",
   "  -n, --keep-order      Does not sort promise types to evaluation order",
   "  -p PAGE_WIDTH, --page-width PAGE_WIDTH",
   "                        Page width, default 100",
   "  -l LINE_ENDINGS, --line-endings LINE_ENDINGS",
   "                        Line endings: 'windows', 'unix', 'detect'. Default",
   "                        'detect'",
   ""]

end PolicyFormat.Command
