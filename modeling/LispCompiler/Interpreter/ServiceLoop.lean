import LispCompiler.Target

namespace LispCompiler.Interpreter

def rubyLoop : List String :=
  ["\n",
    "require \"json\"\n",
    "\n",
    "LISPC_OUT = $stdout.dup\n",
    "$stdout = $stderr\n",
    "LISPC_MACROS = \x7b\x7d\n",
    "\n",
    "def lispc_session\n",
    "  binding\n",
    "end\n",
    "LISPC_SESSION = lispc_session\n",
    "\n",
    "def lispc_sexp(value)\n",
    "  case value\n",
    "  when Array then \"(\" + value.map \x7b |item| lispc_sexp(item) \x7d.join(\" \") + \")\"\n",
    "  when Symbol then value.to_s\n",
    "  when String then JSON.generate(value)\n",
    "  when nil then \"nil\"\n",
    "  else value.inspect\n",
    "  end\n",
    "end\n",
    "\n",
    "def lispc_reply(line)\n",
    "  LISPC_OUT.puts(line)\n",
    "  LISPC_OUT.flush\n",
    "end\n",
    "\n",
    "while (line = $stdin.gets)\n",
    "  command, name, code = JSON.parse(line)\n",
    "  begin\n",
    "    case command\n",
    "    when \"macro\"\n",
    "      LISPC_MACROS[name] = LISPC_SESSION.eval(code)\n",
    "      lispc_reply(\"ok\")\n",
    "    when \"expand\"\n",
    "      args = LISPC_SESSION.eval(code)\n",
    "      lispc_reply(\"ok \" + lispc_sexp(LISPC_MACROS.fetch(name).call(*args)))\n",
    "    else\n",
    "      LISPC_SESSION.eval(code)\n",
    "      lispc_reply(\"ok\")\n",
    "    end\n",
    "  rescue StandardError, ScriptError => e\n",
    "    lispc_reply(\"error \" + JSON.generate(e.message))\n",
    "  end\n",
    "end\n"]

def nodeLoop : List String :=
  ["\n",
    "const fs = require(\"fs\");\n",
    "const readline = require(\"readline\");\n",
    "\n",
    "console.log = (...args) => console.error(...args);\n",
    "const lispcMacros = new Map();\n",
    "const lispcEval = (code) => (0, eval)(code);\n",
    "\n",
    "const lispcSexp = (value) =>\n",
    "  Array.isArray(value) ? `($\x7bvalue.map(lispcSexp).join(\" \")\x7d)`\n",
    "  : typeof value === \"symbol\" ? Symbol.keyFor(value)\n",
    "  : typeof value === \"string\" ? JSON.stringify(value)\n",
    "  : value === null || value === undefined ? \"nil\"\n",
    "  : String(value);\n",
    "\n",
    "const lispcReply = (line) => fs.writeSync(1, line + \"\\n\");\n",
    "\n",
    "readline.createInterface(\x7b input: process.stdin \x7d).on(\"line\", (line) => \x7b\n",
    "  const [command, name, code] = JSON.parse(line);\n",
    "  try \x7b\n",
    "    if (command === \"macro\") \x7b\n",
    "      lispcMacros.set(name, lispcEval(code));\n",
    "      lispcReply(\"ok\");\n",
    "    \x7d else if (command === \"expand\") \x7b\n",
    "      const expander = lispcMacros.get(name);\n",
    "      lispcReply(\"ok \" + lispcSexp(expander(...lispcEval(code))));\n",
    "    \x7d else \x7b\n",
    "      lispcEval(code);\n",
    "      lispcReply(\"ok\");\n",
    "    \x7d\n",
    "  \x7d catch (e) \x7b\n",
    "    lispcReply(\"error \" + JSON.stringify(e instanceof Error ? e.message : String(e)));\n",
    "  \x7d\n",
    "\x7d);\n"]

def serviceLoop : Target → String
  | .ruby => String.join rubyLoop
  | .javascript => String.join nodeLoop

def defaultProgram : Target → String
  | .ruby => "ruby"
  | .javascript => "node"

def arguments (target : Target) : List String :=
  ["-e", serviceLoop target]

end LispCompiler.Interpreter
